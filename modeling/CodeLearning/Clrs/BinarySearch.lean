import CodeLearning.Clrs.Swap
import CodeLearning.Lib.CInt

/-!
# Binary search

`binary_search` compares the value with the middle element of a range and goes on with the half that
may hold it. The results of its recursive calls are dropped, and so is its own one by `bsearch`: a
call that has made another one comes to the end of a function that should return an `int`.
-/

namespace CodeLearning.BinarySearch

open Rearrangement CInt

/-- `binary_search`: an access outside of the array and an overflow of `beg + end` have no defined
effect, and a call that comes to the end of the function returns nothing. -/
def binarySearch (a : List Int32) (beg stop : Nat) (value : Int32) : Option (Option Int) :=
  if beg + stop ≤ intMax then do
    let mid := (beg + stop) / 2
    let x ← a[mid]?
    if value = x then some (some mid)
    else if beg + 1 ≥ stop then some (some (-1))
    else if value > x then do
      let _ ← binarySearch a mid stop value
      some none
    else do
      let _ ← binarySearch a beg mid value
      some none
  else none
termination_by stop - beg

/-- `bsearch`. -/
def bsearch (a : List Int32) (value : Int32) : Option (Option Int) := do
  let _ ← binarySearch a 0 a.length value
  some none

/-- A defined result: an index of the value, or -1 if it does not occur. -/
def Located (a : List Int32) (value : Int32) (result : Option (Option Int)) : Prop :=
  ∃ i, result = some (some i) ∧ (value ∈ a → ∃ k : Nat, i = k ∧ a[k]? = some value) ∧
    (value ∉ a → i = -1)

variable {a : List Int32} {beg stop : Nat} {value : Int32}

/-- The search ends, and reads only elements of its range. -/
theorem binarySearch_ends (more : beg < stop) (high : stop ≤ a.length)
    (short : a.length ≤ 2 ^ 30) (value : Int32) : ∃ r, binarySearch a beg stop value = some r := by
  induction size : stop - beg using Nat.strong_induction_on generalizing beg stop with
  | _ size smaller =>
    have limit : intMax = 2 ^ 31 - 1 := rfl
    have inside : (beg + stop) / 2 < a.length := by omega
    rw [binarySearch, if_pos (by omega)]
    simp only [getElem?_eq_elements inside, Option.bind_eq_bind, Option.bind_some]
    by_cases found : value = elements a ((beg + stop) / 2)
    · exact ⟨_, if_pos found⟩
    · rw [if_neg found]
      by_cases single : beg + 1 ≥ stop
      · exact ⟨_, if_pos single⟩
      · rw [if_neg single]
        by_cases greater : value > elements a ((beg + stop) / 2)
        · obtain ⟨r, ran⟩ := smaller (stop - (beg + stop) / 2) (by omega) (by omega) high rfl
          rw [if_pos greater, ran]
          exact ⟨none, rfl⟩
        · obtain ⟨r, ran⟩ :=
            smaller ((beg + stop) / 2 - beg) (by omega) (by omega) (by omega) rfl
          rw [if_neg greater, ran]
          exact ⟨none, rfl⟩

/-- What `bsearch` returns is never defined. -/
theorem bsearch_not_located (a : List Int32) (value : Int32) :
    ¬ Located a value (bsearch a value) := by
  rintro ⟨i, same, -⟩
  rw [bsearch, Option.bind_eq_bind] at same
  obtain ⟨r, -, nothing⟩ := Option.bind_eq_some_iff.mp same
  cases nothing

/-- `bsearch` of an array that is not too long ends, and returns nothing. -/
theorem bsearch_eq (nonempty : 1 ≤ a.length) (short : a.length ≤ 2 ^ 30) :
    bsearch a value = some none := by
  obtain ⟨r, ran⟩ := binarySearch_ends nonempty (Nat.le_refl _) short value
  rw [bsearch, ran]
  rfl

/-- The call that `bsearch` makes returns a right result exactly when it makes no further call: the
value is the middle element, or there is only one. -/
theorem binarySearch_located_iff (nonempty : 1 ≤ a.length) (short : a.length ≤ 2 ^ 30) :
    Located a value (binarySearch a 0 a.length value) ↔
      a[a.length / 2]? = some value ∨ a.length = 1 := by
  have limit : intMax = 2 ^ 31 - 1 := rfl
  have middle : (0 + a.length) / 2 = a.length / 2 := by rw [Nat.zero_add]
  have inside : a.length / 2 < a.length := by omega
  rw [binarySearch, if_pos (by omega)]
  simp only [middle, getElem?_eq_elements inside, Option.bind_eq_bind, Option.bind_some]
  by_cases found : value = elements a (a.length / 2)
  · rw [if_pos found, ← found]
    refine iff_of_true ⟨_, rfl, fun _ => ⟨a.length / 2, rfl, ?_⟩, fun absent => ?_⟩ (Or.inl rfl)
    · rw [getElem?_eq_elements inside, found]
    · rw [found, ← getElem_eq_elements inside] at absent
      exact absurd (List.getElem_mem inside) absent
  · have other : ¬ some (elements a (a.length / 2)) = some value :=
      fun same => found (Option.some.inj same).symm
    rw [if_neg found, or_iff_right other]
    by_cases single : a.length = 1
    · rw [if_pos (by omega)]
      refine iff_of_true ⟨-1, rfl, fun present => ?_, fun _ => rfl⟩ single
      obtain ⟨k, high, same⟩ := List.getElem_of_mem present
      rw [getElem_eq_elements high, show k = a.length / 2 by omega] at same
      exact absurd same.symm found
    · rw [if_neg (by omega)]
      refine iff_of_false ?_ single
      rintro ⟨i, same, -⟩
      split at same
      · obtain ⟨r, -, nothing⟩ := Option.bind_eq_some_iff.mp same
        cases nothing
      · obtain ⟨r, -, nothing⟩ := Option.bind_eq_some_iff.mp same
        cases nothing

/-- For every array and every value, `bsearch` has no defined result. On a non-empty array of at
most `2 ^ 30` elements it ends without a `return`, having read only elements of it; the call of
`binary_search` whose result it drops has a right one only where this makes no further call. -/
theorem bsearch_undefined (a : List Int32) (value : Int32) :
    ¬ Located a value (bsearch a value) ∧
      (1 ≤ a.length → a.length ≤ 2 ^ 30 → bsearch a value = some none ∧
        (Located a value (binarySearch a 0 a.length value) ↔
          a[a.length / 2]? = some value ∨ a.length = 1)) :=
  ⟨bsearch_not_located a value, fun nonempty short =>
    ⟨bsearch_eq nonempty short, binarySearch_located_iff nonempty short⟩⟩

/-- The only element is looked for. -/
theorem bsearch_undefined_single : ¬ Located [5] 5 (bsearch [5] 5) ∧
    bsearch [5] 5 = some none ∧ Located [5] 5 (binarySearch [5] 0 1 5) :=
  ⟨(bsearch_undefined [5] 5).1, ((bsearch_undefined [5] 5).2 (by decide) (by decide)).1,
    ((bsearch_undefined [5] 5).2 (by decide) (by decide)).2.mpr (Or.inr rfl)⟩

/-- The elements of `main`. -/
def six : List Int32 := [5, 20, 21, 45, 56, 100]

/-- They are sorted, and 56 is one of them, but the search for it returns nothing. -/
theorem bsearch_six : six.Pairwise (· ≤ ·) ∧ 56 ∈ six ∧ bsearch six 56 = some none ∧
    ¬ Located six 56 (bsearch six 56) :=
  ⟨by decide, by decide, bsearch_eq (by decide) (by decide), bsearch_not_located six 56⟩

end CodeLearning.BinarySearch
