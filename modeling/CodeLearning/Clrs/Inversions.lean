import CodeLearning.Lib.CInt
import CodeLearning.Lib.Inversions
import CodeLearning.Lib.MergeParts

/-!
# Counting inversions

`inverse_pairs` sorts an array by merging and counts its inversions on the way. When `merge` takes
an element from the right half, `j - i - tmp` is the number of elements that are left in the left
half, since `tmp` counts how often `j` was moved. All sums are of type `int`, and an access outside
of an array has no defined effect.
-/

namespace CodeLearning.InversePairs

open CInt Inversions MergeParts

/-- The arrays `a` and `tmparr`, and `*num`. -/
structure State where
  /-- `a`. -/
  a : List Int
  /-- `*num`. -/
  num : Int
  /-- `tmparr`. -/
  tmparr : List Int

/-- What `merge` does when it takes an element of the right half, with `tmp` and `*num`. -/
def countAhead (i j : Nat) (s : Nat × Int) : Option (Nat × Int) := do
  let ahead ← checked (j - i - s.1)
  let num ← checked (s.2 + ahead)
  return (s.1 + 1, num)

/-- `merge`. -/
def merge (beg mid stop : Nat) (s : State) : Option State := do
  let (a, tmparr, _, num) ←
    mergeParts (fun x y => decide (x ≤ y)) countAhead 0 beg mid stop s.a s.tmparr (0, s.num)
  return ⟨a, num, tmparr⟩

/-- `inversions`. -/
def inversions (beg stop : Nat) (s : State) : Option State :=
  if beg + stop ≤ intMax then
    let mid := (beg + stop) / 2
    if beg + 1 < stop then do
      let s ← inversions beg mid s
      let s ← inversions mid stop s
      merge beg mid stop s
    else some s
  else none
termination_by stop - beg

/-- `inverse_pairs`, when `malloc` succeeds; the new array holds what the memory holds. -/
def inversePairs (memory : Nat → Int) (a : List Int) (num : Int) : Option (List Int × Int) := do
  let s ← inversions 0 a.length ⟨a, num, (List.range a.length).map memory⟩
  return (s.a, s.num)

/-! ## One merge -/

/-- Before a round of the first loop: `tmp` counts the moves of `j`, and the inversions that were
met and those to be met are all. -/
structure Counting (mid total : Nat) (left : List Int) (j : Nat) (right : List Int)
    (s : Nat × Int) : Prop where
  /-- `tmp` counts the moves of `j`. -/
  moved : j = mid + s.1
  /-- The inversions that are still to be met are missing. -/
  missing : s.2 + mergeCount left right = total
  /-- The number is not negative. -/
  positive : 0 ≤ s.2

/-- The rounds count the inversions between the halves. -/
theorem keeps_counting {mid total : Nat} (fits : total ≤ intMax) :
    Keeps (fun x y : Int => decide (x ≤ y)) countAhead mid (Counting mid total) where
  left {x y left j right s} inv first := by
    have le : x ≤ y := of_decide_eq_true first
    refine ⟨inv.moved, ?_, inv.positive⟩
    have missing := inv.missing
    rwa [mergeCount, if_pos le] at missing
  right {x y left i j right s} ends inv second := by
    obtain ⟨moved, missing, positive⟩ := inv
    have greater : ¬ x ≤ y := fun le => second (decide_eq_true le)
    rw [mergeCount, if_neg greater] at missing
    push_cast at missing
    -- `j - i - tmp` is what is left of the left half.
    have ahead : checked ((j : Int) - i - s.1) = some ((x :: left).length : Int) := by
      rw [show (j : Int) - i - s.1 = (x :: left).length by omega]
      exact checked_eq ⟨by omega, by omega⟩
    have sum : checked (s.2 + ((x :: left).length : Int)) =
        some (s.2 + ((x :: left).length : Int)) := checked_eq ⟨by omega, by omega⟩
    refine ⟨(s.1 + 1, s.2 + (x :: left).length), ?_, ?_, ?_, ?_⟩
    · simp only [countAhead, ahead, sum, Option.bind_eq_bind, Option.bind_some]
      rfl
    · simp only
      omega
    · simp only
      omega
    · simp only
      omega

/-- `merge` merges two parts of the array and counts the inversions that it meets. -/
theorem merge_spec (front left right rest : List Int) {tmparr : List Int} {num : Int}
    (room : left.length + right.length ≤ tmparr.length) (positive : 0 ≤ num)
    (fits : num + mergeCount left right ≤ intMax) :
    ∃ tmparr', merge front.length (front ++ left).length (front ++ left ++ right).length
        ⟨front ++ (left ++ right) ++ rest, num, tmparr⟩ =
          some ⟨front ++ List.merge left right (· ≤ ·) ++ rest, num + mergeCount left right,
            tmparr'⟩ ∧ tmparr'.length = tmparr.length := by
  obtain ⟨total, all⟩ : ∃ total : Nat, num + mergeCount left right = total :=
    Int.eq_ofNat_of_zero_le (by omega)
  have start : Counting (front ++ left).length total left (front ++ left).length right (0, num) :=
    ⟨rfl, all, positive⟩
  obtain ⟨tmparr', j, left', right', ⟨tmp, num'⟩, ran, length, ⟨-, met, -⟩, used⟩ :=
    mergeParts_spec 0 front left right rest tmparr (keeps_counting (by omega)) start
      (by omega)
  -- One half is used up, so that nothing is to be met.
  have none : mergeCount left' right' = 0 := by
    rcases used with rfl | rfl
    · rw [mergeCount]
    · cases left' <;> simp only [mergeCount]
  have counted : num' = num + mergeCount left right := by
    rw [none] at met
    simp only at met
    omega
  refine ⟨tmparr', ?_, length⟩
  simp only [merge, ran, counted, Option.bind_eq_bind, Option.bind_some]
  rfl

/-! ## All merges -/

/-- A list of at most one element is sorted and has no inversions. -/
theorem sorted_of_length_le_one {list : List Int} (short : list.length ≤ 1) :
    list.Pairwise (· ≤ ·) ∧ count list = 0 := by
  refine ⟨ArrayParts.pairwise_of_short short, ?_⟩
  match list, short with
  | [], _ => rfl
  | [x], _ => rfl

/-- `inversions` sorts a part of the array and adds the number of its inversions. -/
def Sorts (front part rest tmparr : List Int) (num : Int) : Prop :=
  ∃ sorted tmparr', inversions front.length (front ++ part).length
      ⟨front ++ part ++ rest, num, tmparr⟩ =
        some ⟨front ++ sorted ++ rest, num + count part, tmparr'⟩ ∧
    sorted.Pairwise (· ≤ ·) ∧ sorted.Perm part ∧ tmparr'.length = tmparr.length

/-- The two halves of a part are sorted, and merged. -/
theorem Sorts.join {front p₁ p₂ rest tmparr : List Int} {num : Int}
    (short : 2 * (front ++ (p₁ ++ p₂)).length ≤ intMax) (more : 1 < (p₁ ++ p₂).length)
    (half : p₁.length = (p₁ ++ p₂).length / 2) (room : (p₁ ++ p₂).length ≤ tmparr.length)
    (positive : 0 ≤ num) (fits : num + count (p₁ ++ p₂) ≤ intMax)
    (first : Sorts front p₁ (p₂ ++ rest) tmparr num)
    (second : ∀ s₁ t₁, s₁.Perm p₁ → t₁.length = tmparr.length →
      Sorts (front ++ s₁) p₂ rest t₁ (num + count p₁)) :
    Sorts front (p₁ ++ p₂) rest tmparr num := by
  obtain ⟨s₁, t₁, ran₁, sorted₁, perm₁, length₁⟩ := first
  obtain ⟨s₂, t₂, ran₂, sorted₂, perm₂, length₂⟩ := second s₁ t₁ perm₁ length₁
  have crossing : mergeCount s₁ s₂ = cross p₁ p₂ :=
    (mergeCount_eq sorted₁ sorted₂).trans (cross_perm perm₁ perm₂)
  have size₁ := perm₁.length_eq
  have size₂ := perm₂.length_eq
  have ends := ArrayParts.halfEnds front half size₁ size₂
  have sum : ((count (p₁ ++ p₂) : Nat) : Int) = count p₁ + count p₂ + cross p₁ p₂ := by
    rw [count_append]
    push_cast
    rfl
  simp only [List.length_append] at short more half room
  obtain ⟨t₃, ran₃, length₃⟩ := merge_spec front s₁ s₂ rest
    (show s₁.length + s₂.length ≤ t₂.length by omega)
    (show 0 ≤ num + count p₁ + count p₂ by omega) (by rw [crossing]; omega)
  refine ⟨List.merge s₁ s₂ (· ≤ ·), t₃, ?_, sorted₁.merge sorted₂,
    (List.merge_perm_append _).trans (perm₁.append perm₂), by omega⟩
  have array₁ : front ++ (p₁ ++ p₂) ++ rest = front ++ p₁ ++ (p₂ ++ rest) := by simp
  have array₂ : front ++ s₁ ++ (p₂ ++ rest) = front ++ s₁ ++ p₂ ++ rest := by simp
  have array₃ : front ++ s₁ ++ s₂ ++ rest = front ++ (s₁ ++ s₂) ++ rest := by simp
  rw [inversions, if_pos (by simp only [List.length_append]; omega)]
  simp only [if_pos (show front.length + 1 < (front ++ (p₁ ++ p₂)).length by
    simp only [List.length_append]; omega), ends.middle]
  rw [array₁, ran₁, Option.bind_eq_bind, Option.bind_some, array₂, ends.before, ends.behind, ran₂,
    Option.bind_some, array₃, ends.behind', ran₃, crossing, sum]
  simp only [Int.add_assoc]

/-- Every part is sorted. -/
theorem inversions_spec {front part rest tmparr : List Int} {num : Int}
    (short : 2 * (front ++ part).length ≤ intMax) (room : part.length ≤ tmparr.length)
    (positive : 0 ≤ num) (fits : num + count part ≤ intMax) : Sorts front part rest tmparr num := by
  induction size : part.length using Nat.strong_induction_on
    generalizing front part rest tmparr num with
  | _ size smaller =>
    have total : (front ++ part).length = front.length + part.length := List.length_append
    by_cases more : 1 < part.length
    · obtain ⟨p₁, p₂, rfl, half⟩ := ArrayParts.exists_halves part
      have lengths : (p₁ ++ p₂).length = p₁.length + p₂.length := List.length_append
      have counts : count (p₁ ++ p₂) = count p₁ + count p₂ + cross p₁ p₂ := count_append
      refine Sorts.join short more half room positive fits ?_ ?_
      · have before : (front ++ p₁).length = front.length + p₁.length := List.length_append
        exact smaller p₁.length (by omega) (by omega) (by omega) positive (by omega) rfl
      · intro s₁ t₁ perm length
        have same := perm.length_eq
        refine smaller p₂.length (by omega) ?_ (by omega) (by omega) (by omega) rfl
        simp only [List.length_append] at short ⊢
        omega
    · have single := sorted_of_length_le_one (show part.length ≤ 1 by omega)
      refine ⟨part, tmparr, ?_, single.1, List.Perm.refl part, rfl⟩
      rw [inversions, if_pos (by omega)]
      simp only [if_neg (show ¬ front.length + 1 < (front ++ part).length by omega), single.2,
        Int.natCast_zero, Int.add_zero]

/-- For an array of at most 65536 elements, `inverse_pairs` sorts it and counts its inversions, with
no overflow. -/
theorem inverse_pairs_counts (a : List Int) (short : a.length ≤ 65536) (memory : Nat → Int) :
    ∃ sorted, inversePairs memory a 0 = some (sorted, ((inversionPairs a).card : Int)) ∧
      sorted.Pairwise (· ≤ ·) ∧ sorted.Perm a := by
  have bound := two_mul_count_le a
  have square : a.length * a.length ≤ 65536 * a.length := Nat.mul_le_mul_right a.length short
  have fits : 2 * count a ≤ 65535 * 65536 := by omega
  have limit : intMax = 2147483647 := rfl
  have sorts : Sorts [] a [] ((List.range a.length).map memory) 0 := by
    refine inversions_spec ?_ ?_ (Int.le_refl 0) ?_
    · rw [List.nil_append]
      omega
    · rw [List.length_map, List.length_range]
    · rw [Int.zero_add]
      omega
  obtain ⟨sorted, tmparr, ran, increasing, perm, -⟩ := sorts
  rw [List.nil_append, List.nil_append, List.append_nil, List.append_nil, List.length_nil,
    Int.zero_add] at ran
  refine ⟨sorted, ?_, increasing, perm⟩
  rw [inversePairs, ran, card_inversionPairs]
  rfl

/-- Three elements with two inversions. -/
theorem inverse_pairs_three : ∃ sorted,
    inversePairs (fun _ => 0) [2, 3, 1] 0 = some (sorted, ((inversionPairs [2, 3, 1]).card : Int)) ∧
      sorted.Pairwise (· ≤ ·) ∧ sorted.Perm [2, 3, 1] :=
  inverse_pairs_counts [2, 3, 1] (by decide) (fun _ => 0)

end CodeLearning.InversePairs
