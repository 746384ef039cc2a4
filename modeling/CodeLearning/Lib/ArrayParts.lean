import CodeLearning.Lib.Rearrangement

/-!
# Lists in an array

A loop that reads an array from an index on reads a list that stands there, and a loop that writes
it writes a list behind what it has written before. `At` says where a list stands. Two sorted lists
are merged by any rule that never takes the greater one of two elements first.
-/

namespace CodeLearning.ArrayParts

open Rearrangement

variable {α : Type} {array front list rest : List α} {i : Nat} {x : α}

/-- A list stands in an array from an index on. -/
def At (array : List α) (i : Nat) (list : List α) : Prop := list <+: array.drop i

/-- The first element of the list. -/
theorem At.head (here : At array i (x :: list)) : array[i]? = some x := by
  obtain ⟨tail, same⟩ := here
  rw [← List.head?_drop, ← same, List.cons_append, List.head?_cons]

/-- The other elements. -/
theorem At.tail (here : At array i (x :: list)) : At array (i + 1) list := by
  obtain ⟨tail, same⟩ := here
  exact ⟨tail, by rw [← List.tail_drop, ← same, List.cons_append, List.tail_cons]⟩

/-- A part of an array stands behind the part in front of it. -/
theorem at_middle : At (front ++ list ++ rest) front.length list := by
  rw [At, List.append_assoc, List.drop_left]
  exact List.prefix_append list rest

/-- Nothing stands everywhere. -/
theorem at_nil : At array i [] := List.nil_prefix

/-- An element is written behind the list. -/
theorem At.store (here : At array i list) (room : i + list.length < array.length) (x : α) :
    ∃ array', store array (i + list.length) x = some array' ∧ At array' i (list ++ [x]) ∧
      array'.length = array.length := by
  refine ⟨_, if_pos room, ?_, List.length_set⟩
  have here' : list <+: array.drop i := here
  obtain ⟨tail, same⟩ := here'
  cases tail with
  | nil =>
    have lengths := congrArg List.length same
    rw [List.append_nil, List.length_drop] at lengths
    omega
  | cons y tail =>
    refine ⟨tail, ?_⟩
    rw [List.drop_set, if_neg (by omega), ← same, Nat.add_sub_cancel_left,
      List.set_append_right _ _ (Nat.le_refl _), Nat.sub_self, List.set_cons_zero,
      List.append_assoc, List.singleton_append]

/-- An element in the middle of an array is overwritten. -/
theorem store_middle {y : α} :
    store (front ++ y :: rest) front.length x = some (front ++ x :: rest) := by
  rw [Rearrangement.store, if_pos (by simp), List.set_append_right _ _ (Nat.le_refl _),
    Nat.sub_self, List.set_cons_zero]

/-- A part has two halves. -/
theorem exists_halves (part : List α) :
    ∃ p₁ p₂, part = p₁ ++ p₂ ∧ p₁.length = part.length / 2 := by
  refine ⟨part.take (part.length / 2), part.drop (part.length / 2),
    (List.take_append_drop _ _).symm, ?_⟩
  rw [List.length_take]
  omega

/-- The ends of the two halves of a part, when other lists of the same lengths stand in front. -/
structure HalfEnds (front p₁ p₂ s₁ s₂ : List α) : Prop where
  /-- The middle. -/
  middle : (front.length + (front ++ (p₁ ++ p₂)).length) / 2 = (front ++ p₁).length
  /-- The end of the first half. -/
  before : (front ++ p₁).length = (front ++ s₁).length
  /-- The end of the second half, behind the new first one. -/
  behind : (front ++ (p₁ ++ p₂)).length = (front ++ s₁ ++ p₂).length
  /-- The end of the new second half. -/
  behind' : (front ++ s₁ ++ p₂).length = (front ++ s₁ ++ s₂).length

/-- Halves of the same lengths have the same ends. -/
theorem halfEnds {p₁ p₂ s₁ s₂ : List α} (front : List α)
    (half : p₁.length = (p₁ ++ p₂).length / 2) (size₁ : s₁.length = p₁.length)
    (size₂ : s₂.length = p₂.length) : HalfEnds front p₁ p₂ s₁ s₂ := by
  simp only [List.length_append] at half
  constructor
  · simp only [List.length_append]
    omega
  · simp only [List.length_append]
    omega
  · simp only [List.length_append]
    omega
  · simp only [List.length_append]
    omega

/-- A list of at most one element is sorted. -/
theorem pairwise_of_short [LinearOrder α] {list : List α} (short : list.length ≤ 1) :
    list.Pairwise (· ≤ ·) := by
  match list, short with
  | [], _ => exact List.Pairwise.nil
  | [x], _ => exact List.pairwise_singleton _ x

/-- Sorted lists are merged by a rule that may take either one of two equal elements. -/
theorem pairwise_merge [LinearOrder α] {takesLeft : α → α → Bool} {left right : List α}
    (takes : ∀ x y, takesLeft x y = true → x ≤ y) (leaves : ∀ x y, ¬ takesLeft x y = true → y ≤ x)
    (sorted : left.Pairwise (· ≤ ·)) (sorted' : right.Pairwise (· ≤ ·)) :
    (List.merge left right takesLeft).Pairwise (· ≤ ·) := by
  fun_induction List.merge left right takesLeft with
  | case1 right => exact sorted'
  | case2 left => exact sorted
  | case3 x left y right first later =>
    rw [List.pairwise_cons] at sorted
    refine List.pairwise_cons.mpr ⟨fun z mem => ?_, later sorted.2 sorted'⟩
    rcases List.mem_merge.mp mem with inLeft | inRight
    · exact sorted.1 z inLeft
    · rcases List.mem_cons.mp inRight with here | behind
      · exact here ▸ takes x y first
      · exact le_trans (takes x y first) ((List.pairwise_cons.mp sorted').1 z behind)
  | case4 x left y right first later =>
    rw [List.pairwise_cons] at sorted'
    refine List.pairwise_cons.mpr ⟨fun z mem => ?_, later sorted sorted'.2⟩
    rcases List.mem_merge.mp mem with inLeft | inRight
    · rcases List.mem_cons.mp inLeft with here | behind
      · exact here ▸ leaves x y first
      · exact le_trans (leaves x y first) ((List.pairwise_cons.mp sorted).1 z behind)
    · exact sorted'.1 z inRight

end CodeLearning.ArrayParts
