import Mathlib.Data.List.Sort
import Mathlib.Logic.Equiv.Basic

/-!
# Rearranged arrays

A program that sorts in place changes the order of the elements in a range of an array. `Arranges`
says so, in a form that composes: the elements behind one index and before another are permuted, and
the others stay. A program that holds one element outside of the array moves a hole through it; with
the element in the hole, each move only rearranges the array.
-/

namespace CodeLearning.Rearrangement

/-! ## Functions of the index -/

section Functions

variable {α : Type} {f g h : Nat → α} {b e b' e' i j : Nat} {x : α}

/-- The values in a range are permuted. -/
def Rearranged (b e : Nat) (f g : Nat → α) : Prop :=
  ∃ order : Equiv.Perm Nat, (∀ i, i < b ∨ e ≤ i → order i = i) ∧ ∀ i, g i = f (order i)

/-- Nothing is moved. -/
theorem Rearranged.refl (b e : Nat) (f : Nat → α) : Rearranged b e f f :=
  ⟨Equiv.refl Nat, fun _ _ => rfl, fun _ => rfl⟩

/-- One rearrangement after another. -/
theorem Rearranged.trans (first : Rearranged b e f g) (second : Rearranged b e g h) :
    Rearranged b e f h := by
  obtain ⟨order, fixed, same⟩ := first
  obtain ⟨order', fixed', same'⟩ := second
  refine ⟨order'.trans order, ?_, ?_⟩
  · intro i outside
    rw [Equiv.trans_apply, fixed' i outside, fixed i outside]
  · intro i
    rw [same', same, Equiv.trans_apply]

/-- A rearrangement of a part of a range. -/
theorem Rearranged.mono (rearranged : Rearranged b e f g) (low : b' ≤ b) (high : e ≤ e') :
    Rearranged b' e' f g := by
  obtain ⟨order, fixed, same⟩ := rearranged
  exact ⟨order, fun i outside => fixed i (by omega), same⟩

/-- A value outside of the range stays. -/
theorem Rearranged.outside (rearranged : Rearranged b e f g) (outside : i < b ∨ e ≤ i) :
    g i = f i := by
  obtain ⟨order, fixed, same⟩ := rearranged
  rw [same, fixed i outside]

/-- A value inside of the range comes from there. -/
theorem Rearranged.inside (rearranged : Rearranged b e f g) (low : b ≤ i) (high : i < e) :
    ∃ j, b ≤ j ∧ j < e ∧ g i = f j := by
  obtain ⟨order, fixed, same⟩ := rearranged
  refine ⟨order i, ?_⟩
  by_contra left
  have outside : order i < b ∨ e ≤ order i := by
    by_contra within
    exact left ⟨by omega, by omega, same i⟩
  have stays : order i = i := order.injective (fixed _ outside)
  omega

/-- What holds of all values in the range holds of them afterwards. -/
theorem Rearranged.forall {P : α → Prop} (rearranged : Rearranged b e f g)
    (all : ∀ i, b ≤ i → i < e → P (f i)) (low : b ≤ i) (high : i < e) : P (g i) := by
  obtain ⟨j, lowJ, highJ, same⟩ := rearranged.inside low high
  rw [same]
  exact all j lowJ highJ

/-- A permutation of the numbers from `b` on. -/
def shifted (b : Nat) (order : Equiv.Perm Nat) : Equiv.Perm Nat where
  toFun i := if b ≤ i then b + order (i - b) else i
  invFun i := if b ≤ i then b + order.symm (i - b) else i
  left_inv i := by
    dsimp only
    by_cases low : b ≤ i
    · rw [if_pos low, if_pos (Nat.le_add_right b _), Nat.add_sub_cancel_left,
        order.symm_apply_apply, Nat.add_sub_cancel' low]
    · rw [if_neg low, if_neg low]
  right_inv i := by
    dsimp only
    by_cases low : b ≤ i
    · rw [if_pos low, if_pos (Nat.le_add_right b _), Nat.add_sub_cancel_left,
        order.apply_symm_apply, Nat.add_sub_cancel' low]
    · rw [if_neg low, if_neg low]

/-- Values from `b` on that are those of other functions, which are rearranged. -/
theorem Rearranged.shift {f' g' : Nat → α} {m : Nat} (moved : Rearranged 0 m f' g')
    (before : ∀ i < m, f (b + i) = f' i) (after : ∀ i < m, g (b + i) = g' i)
    (others : ∀ i, i < b ∨ b + m ≤ i → g i = f i) : Rearranged b (b + m) f g := by
  obtain ⟨order, fixed, same⟩ := moved
  have shift : ∀ i, b ≤ i → shifted b order i = b + order (i - b) := fun i low => if_pos low
  refine ⟨shifted b order, ?_, ?_⟩
  · intro i outside
    by_cases low : b ≤ i
    · rw [shift i low, fixed (i - b) (by omega), Nat.add_sub_cancel' low]
    · exact if_neg low
  · intro i
    by_cases low : b ≤ i
    · rw [shift i low]
      by_cases high : i - b < m
      · have stays : order (i - b) < m := by
          by_contra left
          have fix : order (i - b) = i - b := order.injective (fixed _ (by omega))
          omega
        rw [before _ stays, ← same, ← after _ high, Nat.add_sub_cancel' low]
      · rw [fixed (i - b) (by omega), Nat.add_sub_cancel' low]
        exact others i (by omega)
    · have stays : shifted b order i = i := if_neg low
      rw [stays]
      exact others i (by omega)

/-- With a value in the hole, moving the hole exchanges two values. -/
theorem rearranged_move (insideI : b ≤ i ∧ i < e) (insideJ : b ≤ j ∧ j < e) (f : Nat → α) (x : α) :
    Rearranged b e (Function.update f i x)
      (Function.update (Function.update f i (Function.update f i x j)) j x) := by
  refine ⟨Equiv.swap i j, ?_, ?_⟩
  · intro k outside
    exact Equiv.swap_apply_of_ne_of_ne (by omega) (by omega)
  · intro k
    by_cases atJ : k = j
    · rw [atJ, Function.update_self, Equiv.swap_apply_right, Function.update_self]
    · rw [Function.update_of_ne atJ]
      by_cases atI : k = i
      · rw [atI, Function.update_self, Equiv.swap_apply_left]
      · rw [Function.update_of_ne atI, Equiv.swap_apply_of_ne_of_ne atI atJ,
          Function.update_of_ne atI]

/-- The values in a range do not decrease. -/
def Increasing [LinearOrder α] (f : Nat → α) (b e : Nat) : Prop :=
  ∀ i j, b ≤ i → i ≤ j → j < e → f i ≤ f j

/-- It is enough to compare neighbours. -/
theorem increasing_of_neighbours [LinearOrder α]
    (step : ∀ i, b ≤ i → i + 1 < e → f i ≤ f (i + 1)) : Increasing f b e := by
  intro i j low le high
  induction j, le using Nat.le_induction with
  | base => exact le_refl _
  | succ j le before => exact le_trans (before (by omega)) (step j (by omega) high)

/-- A range that has at most one value. -/
theorem increasing_of_short [LinearOrder α] (short : e ≤ b + 1) : Increasing f b e := by
  intro i j low le high
  obtain rfl : i = j := by omega
  exact le_refl _

/-- A range is parted at an index: no value before it is greater than the one there, and no value
behind it is less. -/
structure Parted [LinearOrder α] (f : Nat → α) (b e k : Nat) : Prop where
  /-- The values before the index. -/
  before : ∀ p, b ≤ p → p < k → f p ≤ f k
  /-- The values behind the index. -/
  behind : ∀ p, k < p → p < e → f k ≤ f p

/-- What stands before the index may be rearranged. -/
theorem Parted.rearranged_before [LinearOrder α] {k : Nat} (parted : Parted f b e k)
    (moved : Rearranged b k f g) : Parted g b e k where
  before p low high := by
    rw [moved.outside (Or.inr (Nat.le_refl k))]
    exact moved.forall (P := fun x => x ≤ f k) parted.before low high
  behind p low high := by
    rw [moved.outside (Or.inr (Nat.le_refl k)), moved.outside (Or.inr (Nat.le_of_lt low))]
    exact parted.behind p low high

/-- So may what stands behind it. -/
theorem Parted.rearranged_behind [LinearOrder α] {k : Nat} (parted : Parted f b e k)
    (moved : Rearranged (k + 1) e f g) : Parted g b e k where
  before p low high := by
    rw [moved.outside (Or.inl (Nat.lt_succ_self k)), moved.outside (Or.inl (by omega))]
    exact parted.before p low high
  behind p low high := by
    rw [moved.outside (Or.inl (Nat.lt_succ_self k))]
    exact moved.forall (P := fun x => f k ≤ x) parted.behind low high

/-- A range outside of which values are rearranged. -/
theorem Increasing.outside [LinearOrder α] (increasing : Increasing f b' e')
    (moved : Rearranged b e f g) (apart : e' ≤ b ∨ e ≤ b') : Increasing g b' e' := by
  intro i j low le high
  rw [moved.outside (by omega), moved.outside (by omega)]
  exact increasing i j low le high

/-- A parted range whose two parts do not decrease. -/
theorem Parted.increasing [LinearOrder α] {k : Nat} (parted : Parted f b e k)
    (first : Increasing f b k) (second : Increasing f (k + 1) e) : Increasing f b e := by
  intro i j low le high
  rcases Nat.lt_trichotomy i k with before | here | behind
  · rcases Nat.lt_trichotomy j k with before' | here' | behind'
    · exact first i j low le before'
    · exact here' ▸ parted.before i low before
    · exact le_trans (parted.before i low before) (parted.behind j behind' high)
  · rcases Nat.eq_or_lt_of_le le with same | less
    · rw [same]
    · rw [here] at less ⊢
      exact parted.behind j less high
  · exact second i j behind le high

/-- The parts of a parted range are put into order one after the other. -/
theorem Parted.increasing_of_parts [LinearOrder α] {k : Nat} (parted : Parted f b e k)
    (movedFirst : Rearranged b k f g) (first : Increasing g b k)
    (movedSecond : Rearranged (k + 1) e g h) (second : Increasing h (k + 1) e) :
    Increasing h b e :=
  ((parted.rearranged_before movedFirst).rearranged_behind movedSecond).increasing
    (first.outside movedSecond (Or.inl (Nat.le_succ k))) second

end Functions

/-! ## Arrays -/

section Arrays

variable {α : Type} [Inhabited α] {a a' a'' front part rest : List α} {b e b' e' i j : Nat} {x : α}

omit [Inhabited α] in
/-- A write to an array; `none` outside of it. -/
def store (a : List α) (i : Nat) (x : α) : Option (List α) :=
  if i < a.length then some (a.set i x) else none

/-- The elements of an array as a function of the index. -/
def elements (a : List α) (i : Nat) : α := a.getD i default

/-- A read inside of an array. -/
theorem getElem?_eq_elements (inside : i < a.length) : a[i]? = some (elements a i) := by
  rw [elements, List.getD_eq_getElem?_getD, List.getElem?_eq_getElem inside, Option.getD_some]

/-- An element of an array. -/
theorem getElem_eq_elements (inside : i < a.length) : a[i] = elements a i := by
  rw [elements, List.getD_eq_getElem?_getD, List.getElem?_eq_getElem inside, Option.getD_some]

/-- An element is overwritten with itself. -/
theorem set_elements (inside : i < a.length) : a.set i (elements a i) = a := by
  rw [← getElem_eq_elements inside, List.set_getElem_self]

omit [Inhabited α] in
/-- A write inside of an array. -/
theorem store_eq (inside : i < a.length) (x : α) : store a i x = some (a.set i x) := if_pos inside

/-- The elements after a write. -/
theorem elements_set (inside : i < a.length) (x : α) :
    elements (a.set i x) = Function.update (elements a) i x := by
  funext k
  by_cases here : k = i
  · rw [here, Function.update_self, elements, List.getD_eq_getElem?_getD,
      List.getElem?_set_self inside, Option.getD_some]
  · rw [Function.update_of_ne here, elements, elements, List.getD_eq_getElem?_getD,
      List.getD_eq_getElem?_getD, List.getElem?_set_ne (Ne.symm here)]

/-- An array is its elements in their order. -/
theorem map_elements (a : List α) : (List.range a.length).map (elements a) = a := by
  apply List.ext_getElem
  · rw [List.length_map, List.length_range]
  · intro i _ inside
    rw [List.getElem_map, List.getElem_range, getElem_eq_elements inside]

/-- Only the elements of a range are permuted. -/
structure Arranges (b e : Nat) (a a' : List α) : Prop where
  /-- The length stays. -/
  length : a'.length = a.length
  /-- The elements are rearranged. -/
  rearranged : Rearranged b e (elements a) (elements a')

/-- Nothing is moved. -/
theorem Arranges.refl (b e : Nat) (a : List α) : Arranges b e a a := ⟨rfl, .refl b e _⟩

/-- One after another. -/
theorem Arranges.trans (first : Arranges b e a a') (second : Arranges b e a' a'') :
    Arranges b e a a'' :=
  ⟨second.length.trans first.length, first.rearranged.trans second.rearranged⟩

/-- In a part of the range. -/
theorem Arranges.mono (arranges : Arranges b e a a') (low : b' ≤ b) (high : e ≤ e') :
    Arranges b' e' a a' :=
  ⟨arranges.length, arranges.rearranged.mono low high⟩

/-- The hole of an array moves. -/
theorem arranges_move (insideI : b ≤ i ∧ i < e) (insideJ : b ≤ j ∧ j < e) (apart : i ≠ j)
    (high : e ≤ a.length) (x : α) :
    Arranges b e (a.set i x) ((a.set i (elements a j)).set j x) := by
  have boundI : i < a.length := by omega
  have boundJ : j < (a.set i (elements a j)).length := by
    rw [List.length_set]
    omega
  refine ⟨by rw [List.length_set, List.length_set, List.length_set], ?_⟩
  rw [elements_set boundI, elements_set boundJ, elements_set boundI]
  have moved := rearranged_move insideI insideJ (elements a) x
  rwa [Function.update_of_ne (Ne.symm apart)] at moved

/-- Two elements of an array are exchanged. -/
theorem arranges_exchange (insideI : b ≤ i ∧ i < e) (insideJ : b ≤ j ∧ j < e) (apart : i ≠ j)
    (high : e ≤ a.length) :
    Arranges b e a ((a.set i (elements a j)).set j (elements a i)) := by
  have moved := arranges_move insideI insideJ apart high (elements a i)
  rwa [set_elements (by omega)] at moved

/-- The elements are the same. -/
theorem Arranges.perm (arranges : Arranges b e a a') (high : e ≤ a.length) : a'.Perm a := by
  obtain ⟨length, order, fixed, same⟩ := arranges
  have orders : ((List.range a.length).map order).Perm (List.range a.length) := by
    refine (List.perm_ext_iff_of_nodup (List.nodup_range.map order.injective)
      List.nodup_range).mpr ?_
    intro i
    simp only [List.mem_map, List.mem_range]
    constructor
    · rintro ⟨j, inside, rfl⟩
      by_contra outside
      have stays : order j = j := order.injective (fixed _ (by omega))
      omega
    · intro inside
      refine ⟨order.symm i, ?_, order.apply_symm_apply i⟩
      by_contra outside
      have stays := fixed (order.symm i) (by omega)
      rw [order.apply_symm_apply] at stays
      omega
  have image : a' = ((List.range a.length).map order).map (elements a) := by
    rw [← map_elements a', length, List.map_map]
    exact List.map_congr_left fun i _ => same i
  rw [image]
  exact (orders.map (elements a)).trans (.of_eq (map_elements a))

/-- The parts around the range stay. -/
theorem Arranges.parts
    (arranges : Arranges front.length (front ++ part).length (front ++ part ++ rest) a') :
    ∃ part', a' = front ++ part' ++ rest ∧ part'.Perm part := by
  have length := arranges.length
  simp only [List.length_append] at length
  have outside : ∀ i, i < front.length ∨ (front ++ part).length ≤ i → i < a'.length →
      a'[i]? = (front ++ part ++ rest)[i]? := by
    intro i away inside
    rw [getElem?_eq_elements inside, getElem?_eq_elements (by rw [← arranges.length]; exact inside),
      arranges.rearranged.outside away]
  have before : a'.take front.length = front := by
    apply List.ext_getElem?
    intro i
    by_cases here : i < front.length
    · rw [List.getElem?_take_of_lt here, outside i (Or.inl here) (by omega), List.append_assoc,
        List.getElem?_append_left here]
    · rw [List.getElem?_eq_none (by rw [List.length_take]; omega),
        List.getElem?_eq_none (by omega)]
  have behind : a'.drop (front ++ part).length = rest := by
    apply List.ext_getElem?
    intro i
    rw [List.getElem?_drop]
    by_cases here : i < rest.length
    · rw [outside _ (Or.inr (Nat.le_add_right _ _)) (by rw [List.length_append]; omega),
        List.getElem?_append_right (Nat.le_add_right _ _), Nat.add_sub_cancel_left]
    · rw [List.getElem?_eq_none (by rw [List.length_append]; omega),
        List.getElem?_eq_none (by omega)]
  have whole : a' = front ++ (a'.drop front.length).take part.length ++ rest := by
    conv_lhs => rw [← List.take_append_drop front.length a', before,
      ← List.take_append_drop part.length (a'.drop front.length), List.drop_drop]
    rw [← List.length_append, behind, List.append_assoc]
  refine ⟨_, whole, ?_⟩
  have perm := arranges.perm (by simp)
  rw [whole, List.append_assoc, List.append_assoc, List.perm_append_left_iff,
    List.perm_append_right_iff] at perm
  exact perm

/-- A parted range whose parts are put into order one after the other. -/
theorem Arranges.join [LinearOrder α] {a1 a2 a3 : List α} {k : Nat} (whole : Arranges b e a a1)
    (parted : Parted (elements a1) b e k) (inside : b ≤ k ∧ k < e) (first : Arranges b k a1 a2)
    (sorted1 : Increasing (elements a2) b k) (second : Arranges (k + 1) e a2 a3)
    (sorted2 : Increasing (elements a3) (k + 1) e) :
    Arranges b e a a3 ∧ Increasing (elements a3) b e := by
  have wider1 := first.mono (Nat.le_refl b) (Nat.le_of_lt inside.2)
  have wider2 := second.mono (Nat.le_succ_of_le inside.1) (Nat.le_refl e)
  exact ⟨(whole.trans wider1).trans wider2,
    parted.increasing_of_parts first.rearranged sorted1 second.rearranged sorted2⟩

/-- The elements of the range, between those before and those behind it. -/
theorem Arranges.slice (arranges : Arranges b e a a') (le : b ≤ e) (high : e ≤ a.length) :
    ∃ part', a' = a.take b ++ part' ++ a.drop e ∧ part'.Perm ((a.take e).drop b) := by
  have front : (a.take b).length = b := List.length_take_of_le (by omega)
  have whole : a = a.take b ++ (a.take e).drop b ++ a.drop e := by
    conv_lhs => rw [← List.take_append_drop e a, ← List.take_append_drop b (a.take e),
      List.take_take, Nat.min_eq_left le]
  have both : (a.take b ++ (a.take e).drop b).length = e := by
    rw [List.length_append, front, List.length_drop, List.length_take_of_le high]
    omega
  refine Arranges.parts ?_
  rw [front, both, ← whole]
  exact arranges

/-- An array whose elements do not decrease is sorted. -/
theorem pairwise_of_increasing [LinearOrder α] (increasing : Increasing (elements a) 0 a.length) :
    a.Pairwise (· ≤ ·) := by
  rw [List.pairwise_iff_getElem]
  intro i j insideI insideJ less
  rw [getElem_eq_elements, getElem_eq_elements]
  exact increasing i j (Nat.zero_le _) (Nat.le_of_lt less) insideJ

/-- The elements of a part of an array. -/
theorem elements_middle (inside : i < part.length) :
    elements (front ++ part ++ rest) (front.length + i) = elements part i := by
  rw [elements, elements, List.getD_eq_getElem?_getD, List.getD_eq_getElem?_getD,
    List.getElem?_append_left (by rw [List.length_append]; omega),
    List.getElem?_append_right (Nat.le_add_right _ _), Nat.add_sub_cancel_left]

/-- The elements around a part of an array. -/
theorem elements_around {part' : List α} (length : part'.length = part.length)
    (outside : i < front.length ∨ front.length + part.length ≤ i) :
    elements (front ++ part' ++ rest) i = elements (front ++ part ++ rest) i := by
  rw [elements, elements, List.getD_eq_getElem?_getD, List.getD_eq_getElem?_getD,
    List.append_assoc, List.append_assoc]
  rcases outside with before | behind
  · rw [List.getElem?_append_left before, List.getElem?_append_left before]
  · rw [List.getElem?_append_right (by omega), List.getElem?_append_right (by omega),
      List.getElem?_append_right (by omega), List.getElem?_append_right (by omega), length]

/-- A part of an array is rearranged. -/
theorem Arranges.middle {part' : List α} (arranges : Arranges 0 part.length part part')
    (front rest : List α) : Arranges front.length (front.length + part.length)
      (front ++ part ++ rest) (front ++ part' ++ rest) where
  length := by simp only [List.length_append, arranges.length]
  rearranged := arranges.rearranged.shift (fun _ inside => elements_middle inside)
    (fun _ inside => elements_middle (by rwa [arranges.length]))
    fun _ outside => elements_around arranges.length outside

/-- A part of an array whose elements do not decrease is sorted. -/
theorem pairwise_of_increasing_part [LinearOrder α] (front rest : List α)
    (increasing : Increasing (elements (front ++ part ++ rest)) front.length
      (front ++ part).length) : part.Pairwise (· ≤ ·) := by
  refine pairwise_of_increasing fun i j _ le inside => ?_
  rw [← elements_middle (show i < part.length by omega), ← elements_middle inside]
  exact increasing _ _ (Nat.le_add_right _ _) (by omega) (by rw [List.length_append]; omega)

/-- The elements of a part that is in order. -/
theorem Increasing.middle [LinearOrder α] (increasing : Increasing (elements part) 0 part.length)
    (front rest : List α) : Increasing (elements (front ++ part ++ rest)) front.length
      (front.length + part.length) := by
  intro i j low le high
  obtain ⟨p, rfl⟩ := Nat.exists_eq_add_of_le low
  obtain ⟨q, rfl⟩ := Nat.exists_eq_add_of_le (Nat.le_trans low le)
  rw [elements_middle (by omega), elements_middle (by omega)]
  exact increasing p q (Nat.zero_le p) (by omega) (by omega)

/-- The elements of a sorted array do not decrease. -/
theorem increasing_of_pairwise [LinearOrder α] (sorted : a.Pairwise (· ≤ ·)) :
    Increasing (elements a) 0 a.length := by
  intro i j _ le inside
  rcases Nat.eq_or_lt_of_le le with rfl | less
  · exact le_refl _
  · rw [← getElem_eq_elements inside, ← getElem_eq_elements (Nat.lt_trans less inside)]
    exact List.pairwise_iff_getElem.mp sorted i j _ _ less

omit [Inhabited α] in
/-- There is one sorted order. -/
theorem sorted_unique [LinearOrder α] (sorted : a.Pairwise (· ≤ ·)) (sorted' : a'.Pairwise (· ≤ ·))
    (perm : a.Perm a') : a = a' :=
  List.Perm.eq_of_pairwise' sorted sorted' perm

end Arrays

end CodeLearning.Rearrangement
