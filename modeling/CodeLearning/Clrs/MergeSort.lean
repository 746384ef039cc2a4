import CodeLearning.Clrs.ExchangeSorts
import CodeLearning.Lib.CInt
import CodeLearning.Lib.MergeParts

/-!
# The two mergesorts

`mergesort` of `sorting.c` and that of `mergesort.c` share one temporary array among all merges. The
first one writes each merge to the start of it and takes the right one of two equal elements, the
second one writes it to the places of the merged elements and takes the left one. The sum of the two
ends of a range is of type `int`: it overflows near the end of an array of more than `2 ^ 30`
elements. An access outside of an array has no defined effect.
-/

namespace CodeLearning.Sorting

open Rearrangement ArrayParts MergeParts CInt

/-- The array and the temporary one. -/
structure Buffers where
  /-- `a`. -/
  a : List Int32
  /-- `tmpa`, or `tmparray`. -/
  tmpa : List Int32

/-- `merge`, with the comparison of its first loop and the start of the merge in the temporary
array. -/
def mergeBy (takesLeft : Int32 → Int32 → Bool) (base b mid e : Nat) (s : Buffers) :
    Option Buffers := do
  let (a, tmpa, _) ← mergeParts takesLeft (fun _ _ s => some s) base b mid e s.a s.tmpa ()
  return ⟨a, tmpa⟩

/-- `merge` of `sorting.c`. -/
def merge (b mid e : Nat) (s : Buffers) : Option Buffers :=
  mergeBy (fun x y => decide (x < y)) 0 b mid e s

/-- `merge` of `mergesort.c`. -/
def Sort.merge (lpos rpos rightend : Nat) (s : Buffers) : Option Buffers :=
  mergeBy (fun x y => decide (x ≤ y)) lpos lpos rpos rightend s

/-- `msort`, with its `merge`. -/
def msortBy (merge : Nat → Nat → Nat → Buffers → Option Buffers) (b e : Nat) (s : Buffers) :
    Option Buffers :=
  if b + 1 < e then
    if b + e ≤ intMax then do
      let mid := (b + e) / 2
      let s ← msortBy merge b mid s
      let s ← msortBy merge mid e s
      merge b mid e s
    else none
  else some s
termination_by e - b

/-- `msort` of `sorting.c`. -/
def msort (b e : Nat) (s : Buffers) : Option Buffers := msortBy merge b e s

/-- `msort` of `mergesort.c`. -/
def Sort.msort (left right : Nat) (s : Buffers) : Option Buffers :=
  msortBy Sort.merge left right s

/-- What `malloc` returns for `n` elements: they hold what the memory holds. -/
def allocated (memory : Nat → Int32) (n : Nat) : List Int32 := (List.range n).map memory

/-- `mergesort` of `sorting.c`, when `malloc` succeeds. -/
def mergesort (memory : Nat → Int32) (a : List Int32) : Option (List Int32) := do
  let s ← msort 0 a.length ⟨a, allocated memory a.length⟩
  return s.a

/-- `mergesort` of `mergesort.c`, when `malloc` succeeds. -/
def Sort.mergesort (memory : Nat → Int32) (a : List Int32) : Option (List Int32) := do
  let s ← Sort.msort 0 a.length ⟨a, allocated memory a.length⟩
  return s.a

/-! ## One merge -/

/-- `merge` merges two parts of the array that stand one behind the other. -/
theorem mergeBy_spec (takesLeft : Int32 → Int32 → Bool) (base : Nat)
    (front left right rest tmpa : List Int32)
    (room : base + left.length + right.length ≤ tmpa.length) :
    ∃ tmpa', mergeBy takesLeft base front.length (front ++ left).length
        (front ++ left ++ right).length ⟨front ++ (left ++ right) ++ rest, tmpa⟩ =
          some ⟨front ++ List.merge left right takesLeft ++ rest, tmpa'⟩ ∧
      tmpa'.length = tmpa.length := by
  -- Nothing is counted.
  have keeps : Keeps takesLeft (fun _ _ (s : Unit) => some s) (front ++ left).length
      fun _ _ _ _ => True :=
    ⟨fun _ _ => trivial, fun _ _ _ => ⟨_, rfl, trivial⟩⟩
  obtain ⟨tmpa', _, _, _, _, ran, length, -⟩ :=
    mergeParts_spec (s := ()) base front left right rest tmpa keeps trivial room
  refine ⟨tmpa', ?_, length⟩
  simp only [mergeBy, ran, Option.bind_eq_bind, Option.bind_some]
  rfl

/-! ## All merges -/

/-- A `merge` puts two sorted parts together, and writes nothing else of the array. -/
def Merges (merge : Nat → Nat → Nat → Buffers → Option Buffers) : Prop :=
  ∀ front left right rest tmpa : List Int32, (front ++ left ++ right).length ≤ tmpa.length →
    ∃ merged tmpa', merge front.length (front ++ left).length (front ++ left ++ right).length
        ⟨front ++ (left ++ right) ++ rest, tmpa⟩ = some ⟨front ++ merged ++ rest, tmpa'⟩ ∧
      tmpa'.length = tmpa.length ∧ merged.Perm (left ++ right) ∧
      (left.Pairwise (· ≤ ·) → right.Pairwise (· ≤ ·) → merged.Pairwise (· ≤ ·))

/-- `merge` of `sorting.c` does. -/
theorem merges_merge : Merges merge := by
  intro front left right rest tmpa room
  simp only [List.length_append] at room
  obtain ⟨tmpa', ran, length⟩ :=
    mergeBy_spec (fun x y => decide (x < y)) 0 front left right rest tmpa (by omega)
  refine ⟨_, tmpa', ran, length, List.merge_perm_append _, ?_⟩
  exact pairwise_merge (fun x y less => le_of_lt (of_decide_eq_true less))
    fun x y notLess => not_lt.mp fun less => notLess (decide_eq_true less)

/-- So does that of `mergesort.c`. -/
theorem merges_sort_merge : Merges Sort.merge := by
  intro front left right rest tmpa room
  simp only [List.length_append] at room
  obtain ⟨tmpa', ran, length⟩ :=
    mergeBy_spec (fun x y => decide (x ≤ y)) front.length front left right rest tmpa (by omega)
  refine ⟨_, tmpa', ran, length, List.merge_perm_append _, ?_⟩
  exact pairwise_merge (fun x y le => of_decide_eq_true le)
    fun x y notLe => le_of_not_ge fun le => notLe (decide_eq_true le)

section Recursion

variable {merge : Nat → Nat → Nat → Buffers → Option Buffers}
  {front part p₁ p₂ rest tmpa : List Int32}

/-- `msort` sorts a part of the array. -/
def SortsPart (merge : Nat → Nat → Nat → Buffers → Option Buffers)
    (front part rest tmpa : List Int32) : Prop :=
  ∃ sorted tmpa', msortBy merge front.length (front ++ part).length
      ⟨front ++ part ++ rest, tmpa⟩ = some ⟨front ++ sorted ++ rest, tmpa'⟩ ∧
    sorted.Pairwise (· ≤ ·) ∧ sorted.Perm part ∧ tmpa'.length = tmpa.length

/-- Two halves that are sorted are merged. -/
theorem SortsPart.join (merges : Merges merge) (more : 1 < (p₁ ++ p₂).length)
    (half : p₁.length = (p₁ ++ p₂).length / 2) (room : (front ++ p₁ ++ p₂).length ≤ tmpa.length)
    (short : front.length + (front ++ (p₁ ++ p₂)).length ≤ intMax)
    (first : SortsPart merge front p₁ (p₂ ++ rest) tmpa)
    (second : ∀ s₁ t₁, s₁.Perm p₁ → t₁.length = tmpa.length →
      SortsPart merge (front ++ s₁) p₂ rest t₁) : SortsPart merge front (p₁ ++ p₂) rest tmpa := by
  obtain ⟨s₁, t₁, ran₁, sorted₁, perm₁, length₁⟩ := first
  obtain ⟨s₂, t₂, ran₂, sorted₂, perm₂, length₂⟩ := second s₁ t₁ perm₁ length₁
  have size₁ := perm₁.length_eq
  have size₂ := perm₂.length_eq
  have ends := halfEnds front half size₁ size₂
  have room' : (front ++ s₁ ++ s₂).length ≤ t₂.length := by
    simp only [List.length_append] at room ⊢
    omega
  obtain ⟨merged, t₃, ran₃, length₃, perm₃, sorted₃⟩ := merges front s₁ s₂ rest t₂ room'
  refine ⟨merged, t₃, ?_, sorted₃ sorted₁ sorted₂, perm₃.trans (perm₁.append perm₂), by omega⟩
  simp only [List.length_append] at more half short
  have array₁ : front ++ (p₁ ++ p₂) ++ rest = front ++ p₁ ++ (p₂ ++ rest) := by simp
  have array₂ : front ++ s₁ ++ (p₂ ++ rest) = front ++ s₁ ++ p₂ ++ rest := by simp
  have array₃ : front ++ s₁ ++ s₂ ++ rest = front ++ (s₁ ++ s₂) ++ rest := by simp
  rw [msortBy, if_pos (by simp only [List.length_append]; omega),
    if_pos (by simp only [List.length_append]; omega)]
  simp only [ends.middle]
  rw [array₁, ran₁, Option.bind_eq_bind, Option.bind_some, array₂, ends.before, ends.behind, ran₂,
    Option.bind_some, array₃, ends.behind', ran₃]

/-- Every part of an array of at most `2 ^ 30` elements is sorted. -/
theorem msortBy_spec (merges : Merges merge) (short : (front ++ part).length ≤ 2 ^ 30)
    (room : (front ++ part).length ≤ tmpa.length) : SortsPart merge front part rest tmpa := by
  induction size : part.length using Nat.strong_induction_on
    generalizing front part rest tmpa with
  | _ size smaller =>
    have total : (front ++ part).length = front.length + part.length := List.length_append
    by_cases more : 1 < part.length
    · obtain ⟨p₁, p₂, rfl, half⟩ := exists_halves part
      have lengths : (p₁ ++ p₂).length = p₁.length + p₂.length := List.length_append
      have limit : intMax = 2 ^ 31 - 1 := rfl
      have fits : (front ++ p₁ ++ p₂).length ≤ tmpa.length := by
        rw [List.append_assoc]
        exact room
      refine SortsPart.join merges more half fits (by omega) ?_ ?_
      · have before : (front ++ p₁).length = front.length + p₁.length := List.length_append
        exact smaller p₁.length (by omega) (by omega) (by omega) rfl
      · intro s₁ t₁ perm length
        have same := perm.length_eq
        have longer : (front ++ s₁ ++ p₂).length = (front ++ (p₁ ++ p₂)).length := by
          simp only [List.length_append]
          omega
        exact smaller p₂.length (by omega) (by omega) (by omega) rfl
    · rw [SortsPart, msortBy, if_neg (by omega)]
      exact ⟨part, tmpa, rfl, pairwise_of_short (by omega), .refl part, rfl⟩

/-- The sum of the ends overflows at the latest for the last two elements. -/
theorem msortBy_overflow {b e : Nat} (more : b + 1 < e) (great : 2 ^ 30 < e) (s : Buffers) :
    msortBy merge b e s = none := by
  induction size : e - b using Nat.strong_induction_on generalizing b s with
  | _ size smaller =>
    have limit : intMax = 2 ^ 31 - 1 := rfl
    rw [msortBy, if_pos more]
    by_cases fits : b + e ≤ intMax
    · rw [if_pos fits]
      have fails : ∀ s, msortBy merge ((b + e) / 2) e s = none := fun s =>
        smaller (e - (b + e) / 2) (by omega) (by omega) s rfl
      simp only [fails, Option.bind_eq_bind, Option.bind_none, Option.bind_fun_none]
    · rw [if_neg fits]

/-- The whole array is sorted. -/
theorem msortBy_sorts (merges : Merges merge) {a : List Int32} (short : a.length ≤ 2 ^ 30)
    (memory : Nat → Int32) :
    Sorts ((msortBy merge 0 a.length ⟨a, allocated memory a.length⟩).map Buffers.a) a := by
  have room : ([] ++ a).length ≤ (allocated memory a.length).length := by
    rw [allocated, List.length_map, List.length_range]
    exact Nat.le_refl _
  obtain ⟨sorted, tmpa, ran, increasing, perm, -⟩ :
      SortsPart merge [] a [] (allocated memory a.length) := msortBy_spec merges short room
  rw [List.nil_append, List.nil_append, List.append_nil, List.append_nil, List.length_nil] at ran
  rw [ran]
  exact ⟨sorted, rfl, increasing, perm⟩

/-- A call of `msort` on a range of arrays of equal length is defined, and leaves the elements
outside of the range as they were. -/
def Frames (msort : Nat → Nat → Buffers → Option Buffers) (n : Nat) : Prop :=
  ∀ b e s, b ≤ e → e ≤ n → s.a.length = n → s.tmpa.length = n → ∃ s', msort b e s = some s' ∧
    s'.a.length = n ∧ s'.tmpa.length = n ∧ ∀ i, i < b ∨ e ≤ i → s'.a[i]? = s.a[i]?

/-- Every call of `msort` does. -/
theorem msortBy_frames (merges : Merges merge) {n : Nat} (short : n ≤ 2 ^ 30) :
    Frames (msortBy merge) n := by
  intro b e s le high length length'
  obtain ⟨front, part, rest, parts, begins, ends⟩ : ∃ front part rest,
      s.a = front ++ part ++ rest ∧ front.length = b ∧ (front ++ part).length = e := by
    refine ⟨s.a.take b, (s.a.drop b).take (e - b), s.a.drop e, ?_, ?_, ?_⟩
    · rw [List.append_assoc]
      conv_lhs => rw [← List.take_append_drop b s.a, ← List.take_append_drop (e - b) (s.a.drop b),
        List.drop_drop, show b + (e - b) = e by omega]
    · rw [List.length_take]
      omega
    · rw [List.length_append, List.length_take, List.length_take, List.length_drop]
      omega
  obtain ⟨sorted, tmpa, ran, -, perm, sameLength⟩ :
      SortsPart merge front part rest s.tmpa := msortBy_spec merges (by omega) (by omega)
  have size := perm.length_eq
  have longer : (front ++ sorted).length = (front ++ part).length := by
    rw [List.length_append, List.length_append, size]
  rw [← parts, begins, ends] at ran
  refine ⟨_, ran, ?_, by simp only; omega, fun i outside => ?_⟩
  · rw [List.length_append, longer, ← List.length_append, ← parts, length]
  · simp only
    rw [parts]
    rcases outside with before | behind
    · rw [List.append_assoc, List.append_assoc, List.getElem?_append_left (by omega),
        List.getElem?_append_left (by omega)]
    · rw [List.getElem?_append_right (by omega), List.getElem?_append_right (by omega), longer]

end Recursion

/-- `mergesort` of `sorting.c` sorts an array of at most `2 ^ 30` elements. -/
theorem mergesort_sorts {a : List Int32} (short : a.length ≤ 2 ^ 30) (memory : Nat → Int32) :
    Sorts (mergesort memory a) a := by
  have sorts := msortBy_sorts merges_merge short memory
  rwa [Option.map_eq_bind] at sorts

/-- It has no defined result on a longer one. -/
theorem mergesort_overflow {a : List Int32} (long : 2 ^ 30 < a.length) (memory : Nat → Int32) :
    mergesort memory a = none := by
  rw [mergesort, msort, msortBy_overflow (by omega) long]
  rfl

/-- For every array of at most `2 ^ 30` elements, and whatever the memory held before, the two
versions of `mergesort` end with the same array, which is that array sorted. No call of `msort` on
a part of it leaves the arrays or changes another part. -/
theorem mergesorts_agree (a : List Int32) (short : a.length ≤ 2 ^ 30)
    (memory memory' : Nat → Int32) :
    (∃ sorted, mergesort memory a = some sorted ∧ Sort.mergesort memory' a = some sorted ∧
      sorted.Pairwise (· ≤ ·) ∧ sorted.Perm a) ∧
      Frames msort a.length ∧ Frames Sort.msort a.length := by
  have sorts' := msortBy_sorts merges_sort_merge short memory'
  obtain ⟨sorted, ran, increasing, perm⟩ := mergesort_sorts short memory
  have same : Sort.mergesort memory' a = some sorted := by
    rw [Option.map_eq_bind] at sorts'
    exact (mergesort_sorts short memory).same ran sorts'
  exact ⟨⟨sorted, ran, same, increasing, perm⟩, msortBy_frames merges_merge short,
    msortBy_frames merges_sort_merge short⟩

/-- Three elements, with memory that holds anything. -/
theorem mergesorts_agree_three :
    (∃ sorted, mergesort (fun i => Int32.ofNat i) [2, 3, 1] = some sorted ∧
      Sort.mergesort (fun _ => 7) [2, 3, 1] = some sorted ∧
      sorted.Pairwise (· ≤ ·) ∧ sorted.Perm [2, 3, 1]) ∧ Frames msort 3 ∧ Frames Sort.msort 3 :=
  mergesorts_agree [2, 3, 1] (by decide) (fun i => Int32.ofNat i) fun _ => 7

end CodeLearning.Sorting
