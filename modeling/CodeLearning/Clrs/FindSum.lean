import CodeLearning.Clrs.MergeSort

/-!
# Two elements with a given sum

`find_sum` looks in a sorted array for two elements that add up to `x`. It starts with the first and
the last one and leaves out the last one when their sum is too great, and the first one when it is
too small. The loop goes on while `i <= j`, so that in the end one element is added to itself. There
is no `return` behind the loop.
-/

namespace CodeLearning.Sorting

open Rearrangement CInt

/-- How a call of `find_sum` ends. -/
inductive Ending where
  /-- It returns 1. -/
  | reports
  /-- It comes to the end of the function, where nothing is returned. -/
  | runsOut
deriving DecidableEq

/-- The loop of `find_sum`. -/
def findSumLoop (a : List Int32) (x : Int32) (i : Nat) (j : Int) : Option Ending :=
  if i ≤ j then do
    let u ← a[i]?
    let v ← a[j.toNat]?
    let sum ← checked (u.toInt + v.toInt)
    if sum = x.toInt then some .reports
    else if sum > x.toInt then findSumLoop a x i (j - 1)
    else findSumLoop a x (i + 1) j
  else some .runsOut
termination_by (j + 1 - i).toNat

/-- `find_sum`. -/
def findSum (a : List Int32) (x : Int32) : Option Ending := findSumLoop a x 0 (a.length - 1)

/-- Two elements at different positions add up to `x`. -/
def HasPair (a : List Int32) (x : Int32) : Prop :=
  ∃ (i j : Nat) (u v : Int32),
    i < j ∧ a[i]? = some u ∧ a[j]? = some v ∧ u.toInt + v.toInt = x.toInt

/-- The sums of two elements at different positions do not overflow. -/
def PairsFit (a : List Int32) : Prop :=
  ∀ (i j : Nat) (u v : Int32),
    i < j → a[i]? = some u → a[j]? = some v → IsInt (u.toInt + v.toInt)

/-- No element is half of `x`, and one whose double overflows is left out on account of another
one. -/
def DoublesFit (a : List Int32) (x : Int32) : Prop :=
  ∀ u ∈ a, 2 * u.toInt ≠ x.toInt ∧ (IsInt (2 * u.toInt) ∨ ∃ w ∈ a, w ≠ u ∧
    ((0 < u.toInt ∧ x.toInt < w.toInt + u.toInt) ∨ (u.toInt < 0 ∧ w.toInt + u.toInt < x.toInt)))

/-! ## Pairs do not depend on the order -/

section Order

variable {a a' : List Int32} {x : Int32}

/-- A relation holds between any two elements. -/
theorem pairwise_iff_getElem? {R : Int32 → Int32 → Prop} :
    a.Pairwise R ↔
      ∀ (i j : Nat) (u v : Int32), i < j → a[i]? = some u → a[j]? = some v → R u v := by
  rw [List.pairwise_iff_getElem]
  constructor
  · intro all i j u v less here there
    obtain ⟨insideI, rfl⟩ := List.getElem?_eq_some_iff.mp here
    obtain ⟨insideJ, rfl⟩ := List.getElem?_eq_some_iff.mp there
    exact all i j insideI insideJ less
  · intro all i j insideI insideJ less
    exact all i j _ _ less (List.getElem?_eq_getElem insideI) (List.getElem?_eq_getElem insideJ)

/-- The sums that fit are the same. -/
theorem PairsFit.perm (fits : PairsFit a) (perm : a'.Perm a) : PairsFit a' := by
  have symmetric : ∀ {u v : Int32}, IsInt (u.toInt + v.toInt) → IsInt (v.toInt + u.toInt) :=
    fun fit => by rwa [Int.add_comm]
  exact pairwise_iff_getElem?.mp ((perm.pairwise_iff symmetric).mpr
    (pairwise_iff_getElem?.mpr fits))

/-- So are the pairs. -/
theorem hasPair_perm (perm : a'.Perm a) : HasPair a' x ↔ HasPair a x := by
  have symmetric : ∀ {u v : Int32}, u.toInt + v.toInt ≠ x.toInt → v.toInt + u.toInt ≠ x.toInt :=
    fun other => by rwa [Int.add_comm]
  have none : ∀ list : List Int32,
      HasPair list x ↔ ¬ list.Pairwise fun u v => u.toInt + v.toInt ≠ x.toInt := by
    intro list
    rw [pairwise_iff_getElem?]
    constructor
    · rintro ⟨i, j, u, v, less, here, there, sum⟩ other
      exact other i j u v less here there sum
    · intro some
      by_contra never
      exact some fun i j u v less here there sum => never ⟨i, j, u, v, less, here, there, sum⟩
  rw [none, none, perm.pairwise_iff symmetric]

/-- So are the elements to be doubled. -/
theorem doublesFit_perm (perm : a'.Perm a) : DoublesFit a' x ↔ DoublesFit a x := by
  simp only [DoublesFit, perm.mem_iff]

end Order

/-! ## The scan of a sorted array -/

section Scan

variable {s : List Int32} {x : Int32} {i k : Nat} {j : Int}

/-- An element as a number. -/
def value (s : List Int32) (k : Nat) : Int := (elements s k).toInt

/-- The elements of a sorted array do not decrease. -/
theorem value_mono (sorted : s.Pairwise (· ≤ ·)) {p q : Nat} (le : p ≤ q) (high : q < s.length) :
    value s p ≤ value s q :=
  Int32.le_iff_toInt_le.mp (increasing_of_pairwise sorted p q (Nat.zero_le _) le high)

/-- A pair, by its positions. -/
theorem hasPair_iff :
    HasPair s x ↔ ∃ p q, p < q ∧ q < s.length ∧ value s p + value s q = x.toInt := by
  constructor
  · rintro ⟨p, q, u, v, less, here, there, sum⟩
    have high := (List.getElem?_eq_some_iff.mp there).1
    rw [getElem?_eq_elements (Nat.lt_trans less high)] at here
    rw [getElem?_eq_elements high] at there
    refine ⟨p, q, less, high, ?_⟩
    rw [value, value, Option.some.inj here, Option.some.inj there, sum]
  · rintro ⟨p, q, less, high, sum⟩
    exact ⟨p, q, _, _, less, getElem?_eq_elements (Nat.lt_trans less high),
      getElem?_eq_elements high, sum⟩

/-- The sum of a pair that fits. -/
theorem PairsFit.value (fits : PairsFit s) {p q : Nat} (less : p < q) (high : q < s.length) :
    IsInt (value s p + value s q) :=
  fits p q _ _ less (getElem?_eq_elements (Nat.lt_trans less high)) (getElem?_eq_elements high)

/-- What the scan knows of the elements that it has left out. -/
structure Scanned (s : List Int32) (x : Int32) (i : Nat) (j : Int) : Prop where
  /-- `j` is a position, or stands before the first one. -/
  high : j < s.length
  /-- With an element left out at the front the sum is too small. -/
  front : ∀ p q : Nat, p < i → q ≤ j → value s p + value s q < x.toInt
  /-- With an element left out at the back it is too great. -/
  back : ∀ p q : Nat, i ≤ p → p < s.length → j < q → q < s.length →
    x.toInt < value s p + value s q
  /-- Two elements that were left out at the two ends do not add up to `x`. -/
  ends : ∀ p q : Nat, p < i → j < q → q < s.length → value s p + value s q ≠ x.toInt

/-- Nothing is left out at the start. -/
theorem scanned_start : Scanned s x 0 (s.length - 1) :=
  ⟨by omega, fun p q before => by omega, fun p q _ _ behind high => by omega,
    fun p q before => by omega⟩

/-- The last element is left out. -/
theorem Scanned.leaveBack (sorted : s.Pairwise (· ≤ ·)) (inv : Scanned s x i j)
    (great : x.toInt < value s i + value s j.toNat) : Scanned s x i (j - 1) := by
  have high := inv.high
  refine ⟨by omega, fun p q before behind => inv.front p q before (by omega), ?_, ?_⟩
  · intro p q low highP behind highQ
    by_cases last : (q : Int) = j
    · have mono := value_mono sorted low highP
      rw [show q = j.toNat by omega]
      omega
    · exact inv.back p q low highP (by omega) highQ
  · intro p q before behind highQ
    by_cases last : (q : Int) = j
    · exact Int.ne_of_lt (inv.front p q before (by omega))
    · exact inv.ends p q before (by omega) highQ

/-- The first element is left out. -/
theorem Scanned.leaveFront (sorted : s.Pairwise (· ≤ ·)) (inv : Scanned s x i j) (le : i ≤ j)
    (small : value s i + value s j.toNat < x.toInt) : Scanned s x (i + 1) j := by
  have high := inv.high
  refine ⟨high, ?_, fun p q low => inv.back p q (by omega), ?_⟩
  · intro p q before behind
    by_cases first : p = i
    · have mono := value_mono sorted (show q ≤ j.toNat by omega) (by omega)
      rw [first]
      omega
    · exact inv.front p q (by omega) behind
  · intro p q before behind highQ
    by_cases first : p = i
    · rw [first]
      exact Int.ne_of_gt (inv.back i q (Nat.le_refl _) (by omega) behind highQ)
    · exact inv.ends p q (by omega) behind highQ

/-- A round of the loop whose sum fits. -/
theorem findSumLoop_eq (inv : Scanned s x i j) (le : i ≤ j)
    (fits : IsInt (value s i + value s j.toNat)) :
    findSumLoop s x i j =
      if value s i + value s j.toNat = x.toInt then some .reports
      else if value s i + value s j.toNat > x.toInt then findSumLoop s x i (j - 1)
      else findSumLoop s x (i + 1) j := by
  have high := inv.high
  rw [findSumLoop, if_pos le, getElem?_eq_elements (by omega), getElem?_eq_elements (by omega)]
  simp only [Option.bind_eq_bind, Option.bind_some]
  rw [show checked ((elements s i).toInt + (elements s j.toNat).toInt) =
    some (value s i + value s j.toNat) from if_pos fits]
  rfl

/-- The scan reports a pair, or it comes to a single element. -/
theorem scan_cases (sorted : s.Pairwise (· ≤ ·)) (fits : PairsFit s) (inv : Scanned s x i j)
    (le : i ≤ j) :
    (HasPair s x ∧ findSumLoop s x i j = some .reports) ∨
      ∃ k : Nat, k < s.length ∧ Scanned s x k k ∧ findSumLoop s x i j = findSumLoop s x k k := by
  induction size : (j - i).toNat generalizing i j with
  | zero =>
    obtain rfl : j = i := by omega
    have high := inv.high
    exact Or.inr ⟨i, by omega, inv, rfl⟩
  | succ size smaller =>
    have high := inv.high
    have fit := fits.value (show i < j.toNat by omega) (by omega)
    rw [findSumLoop_eq inv le fit]
    by_cases found : value s i + value s j.toNat = x.toInt
    · rw [if_pos found]
      exact Or.inl ⟨hasPair_iff.mpr ⟨i, j.toNat, by omega, by omega, found⟩, rfl⟩
    · rw [if_neg found]
      by_cases great : value s i + value s j.toNat > x.toInt
      · rw [if_pos great]
        exact smaller (inv.leaveBack sorted great) (by omega) (by omega)
      · rw [if_neg great]
        exact smaller (inv.leaveFront sorted le (by omega)) (by omega) (by omega)

/-- The scan comes to an element that falls short of `x` with those before it and exceeds `x` with
those behind it. -/
structure Meets (s : List Int32) (x : Int32) (k : Nat) : Prop where
  /-- It is an element. -/
  inside : k < s.length
  /-- With those before it. -/
  before : ∀ p < k, value s p + value s k < x.toInt
  /-- With those behind it. -/
  behind : ∀ q, k < q → q < s.length → x.toInt < value s k + value s q

/-- There is at most one such element. -/
theorem Meets.unique {k' : Nat} (meets : Meets s x k) (meets' : Meets s x k') : k = k' := by
  rcases Nat.lt_trichotomy k k' with less | same | greater
  · have above := meets.behind k' less meets'.inside
    have below := meets'.before k less
    omega
  · exact same
  · have above := meets'.behind k greater meets.inside
    have below := meets.before k' greater
    omega

/-- When the scan comes to a single element there is no pair. -/
theorem Scanned.single (inside : k < s.length) (inv : Scanned s x k k) :
    ¬ HasPair s x ∧ Meets s x k := by
  refine ⟨?_, inside, fun p less => inv.front p k less (Int.le_refl _),
    fun q less high => inv.back k q (Nat.le_refl _) inside (by omega) high⟩
  intro pair
  obtain ⟨p, q, less, high, sum⟩ := hasPair_iff.mp pair
  by_cases early : p < k
  · by_cases late : k < q
    · exact inv.ends p q early (by omega) high sum
    · exact Int.ne_of_lt (inv.front p q early (by omega)) sum
  · exact Int.ne_of_gt (inv.back p q (by omega) (by omega) (by omega) high) sum

/-- A round with a single element. -/
theorem findSumLoop_single (inside : k < s.length) (inv : Scanned s x k k) :
    findSumLoop s x k k =
      if IsInt (2 * value s k) then
        if 2 * value s k = x.toInt then some .reports else some .runsOut
      else none := by
  have double : value s k + value s k = 2 * value s k := by omega
  by_cases fits : IsInt (2 * value s k)
  · rw [findSumLoop_eq inv (Int.le_refl _) (by rwa [Int.toNat_natCast, double]),
      Int.toNat_natCast, double, if_pos fits]
    by_cases found : 2 * value s k = x.toInt
    · rw [if_pos found, if_pos found]
    · have ended : ∀ (i : Nat) (j : Int), j < i → findSumLoop s x i j = some .runsOut := by
        intro i j past
        rw [findSumLoop, if_neg (by omega)]
      rw [if_neg found, if_neg found, ended (k + 1) k (by omega), ended k (k - 1) (by omega),
        ite_self]
  · have overflows : checked ((elements s k).toInt + (elements s k).toInt) = none :=
      if_neg (by rwa [← value, double])
    rw [findSumLoop, if_pos (Int.le_refl _), Int.toNat_natCast, getElem?_eq_elements inside,
      if_neg fits]
    simp only [Option.bind_eq_bind, Option.bind_some, overflows, Option.bind_none]

/-- Half of `x` is where the scan comes to, when there is no pair. -/
theorem meets_of_half (sorted : s.Pairwise (· ≤ ·)) (noPair : ¬ HasPair s x) (inside : k < s.length)
    (half : 2 * value s k = x.toInt) : Meets s x k := by
  have other : ∀ p q, p < q → q < s.length → value s p + value s q ≠ x.toInt :=
    fun p q less high sum => noPair (hasPair_iff.mpr ⟨p, q, less, high, sum⟩)
  refine ⟨inside, fun p less => ?_, fun q less high => ?_⟩
  · have mono := value_mono sorted (Nat.le_of_lt less) inside
    have apart := other p k less inside
    omega
  · have mono := value_mono sorted (Nat.le_of_lt less) high
    have apart := other k q less high
    omega

/-- Where there is no pair, the element that the scan comes to decides. -/
theorem doublesFit_iff (sorted : s.Pairwise (· ≤ ·)) (fits : PairsFit s) (noPair : ¬ HasPair s x)
    (meets : Meets s x k) :
    DoublesFit s x ↔ IsInt (2 * value s k) ∧ 2 * value s k ≠ x.toInt := by
  have inside := meets.inside
  have member : ∀ {p}, p < s.length → elements s p ∈ s := fun high =>
    getElem_eq_elements high ▸ List.getElem_mem high
  -- The pair of this element and another one.
  have around : ∀ p < s.length, p ≠ k → IsInt (value s p + value s k) ∧
      (value s p ≤ value s k ∧ value s p + value s k < x.toInt ∨
        value s k ≤ value s p ∧ x.toInt < value s p + value s k) := by
    intro p high apart
    rcases Nat.lt_or_gt_of_ne apart with less | greater
    · exact ⟨fits.value less inside, Or.inl ⟨value_mono sorted (Nat.le_of_lt less) inside,
        meets.before p less⟩⟩
    · rw [Int.add_comm]
      exact ⟨fits.value greater high, Or.inr ⟨value_mono sorted (Nat.le_of_lt greater) high,
        meets.behind p greater high⟩⟩
  constructor
  · intro all
    obtain ⟨other, doubles⟩ := all _ (member inside)
    refine ⟨?_, other⟩
    by_contra overflows
    obtain ⟨w, mem, different, passes⟩ := doubles.resolve_left overflows
    obtain ⟨p, high, same⟩ := List.getElem_of_mem mem
    rw [getElem_eq_elements high] at same
    rw [← same] at passes different
    have apart : p ≠ k := fun here => different (by rw [here])
    have pair := around p high apart
    rw [← value, ← value] at passes
    unfold IsInt at overflows pair
    omega
  · rintro ⟨fit, other⟩ u mem
    obtain ⟨p, high, same⟩ := List.getElem_of_mem mem
    rw [getElem_eq_elements high] at same
    rw [← same, ← value]
    by_cases here : p = k
    · rw [here]
      exact ⟨other, Or.inl fit⟩
    · have pair := around p high here
      refine ⟨fun half => here ((meets_of_half sorted noPair high half).unique meets), ?_⟩
      by_cases fit' : IsInt (2 * value s p)
      · exact Or.inl fit'
      · have different : elements s k ≠ elements s p := by
          intro equal
          have values : value s k = value s p := congrArg Int32.toInt equal
          rw [values, ← Int.two_mul] at pair
          exact fit' pair.1
        refine Or.inr ⟨elements s k, member inside, different, ?_⟩
        rw [← value]
        unfold IsInt at fit' pair
        omega

/-- `find_sum` on a sorted array reports exactly when there is a pair, if there is one or the
doubles fit. -/
theorem findSum_iff (sorted : s.Pairwise (· ≤ ·)) (fits : PairsFit s) :
    (∃ ending, findSum s x = some ending ∧ (ending = .reports ↔ HasPair s x)) ↔
      HasPair s x ∨ DoublesFit s x := by
  by_cases empty : s.length = 0
  · obtain rfl := List.length_eq_zero_iff.mp empty
    have noPair : ¬ HasPair [] x := fun pair => by
      obtain ⟨p, q, -, high, -⟩ := hasPair_iff.mp pair
      cases high
    have ends : findSum [] x = some .runsOut := by
      rw [findSum, findSumLoop, if_neg (by simp)]
    refine iff_of_true ⟨.runsOut, ends, ?_⟩ (Or.inr fun u mem => by cases mem)
    exact iff_of_false (fun same => by cases same) noPair
  rcases scan_cases sorted fits scanned_start (by omega) with ⟨pair, ran⟩ | ⟨k, inside, inv, ran⟩
  · exact iff_of_true ⟨.reports, ran, iff_of_true rfl pair⟩ (Or.inl pair)
  · obtain ⟨noPair, meets⟩ := inv.single inside
    rw [findSum, ran, findSumLoop_single inside inv, or_iff_right noPair,
      doublesFit_iff sorted fits noPair meets]
    by_cases fit : IsInt (2 * value s k)
    · rw [if_pos fit]
      by_cases found : 2 * value s k = x.toInt
      · rw [if_pos found]
        refine iff_of_false ?_ fun both => both.2 found
        rintro ⟨ending, same, reports⟩
        exact noPair (reports.mp (Option.some.inj same).symm)
      · rw [if_neg found]
        exact iff_of_true ⟨.runsOut, rfl, iff_of_false (fun same => by cases same) noPair⟩
          ⟨fit, found⟩
    · rw [if_neg fit]
      refine iff_of_false ?_ fun both => fit both.1
      rintro ⟨ending, same, -⟩
      cases same

end Scan

/-! ## After the array was sorted -/

/-- `mergesort` sorts the array, and `find_sum` then ends and returns 1 exactly when two elements at
different positions add up to `x`. -/
def FindsPairs (memory : Nat → Int32) (a : List Int32) (x : Int32) : Prop :=
  ∃ sorted ending, mergesort memory a = some sorted ∧ findSum sorted x = some ending ∧
    (ending = .reports ↔ HasPair a x)

/-- What decides it for an array that `mergesort` sorts. -/
theorem findsPairs_of_short {memory : Nat → Int32} {a : List Int32} {x : Int32} (fits : PairsFit a)
    (short : a.length ≤ 2 ^ 30) : FindsPairs memory a x ↔ HasPair a x ∨ DoublesFit a x := by
  obtain ⟨sorted, ran, increasing, perm⟩ := mergesort_sorts short memory
  rw [← hasPair_perm perm, ← doublesFit_perm perm, ← findSum_iff increasing (fits.perm perm)]
  constructor
  · rintro ⟨list, ending, ran', ends, same⟩
    obtain rfl := Option.some.inj (ran.symm.trans ran')
    exact ⟨ending, ends, same.trans (hasPair_perm perm).symm⟩
  · rintro ⟨ending, ends, same⟩
    exact ⟨sorted, ending, ran, ends, same.trans (hasPair_perm perm)⟩

/-- For every array and every `x`, where the sums of two elements do not overflow: after `mergesort`
`find_sum` ends and returns 1 exactly when two elements at different positions add up to `x`, if
and only if the array has at most `2 ^ 30` elements and there is such a pair, or no element is half
of `x` and one whose double overflows is left out before. -/
theorem find_sum_iff (memory : Nat → Int32) (a : List Int32) (x : Int32) (fits : PairsFit a) :
    FindsPairs memory a x ↔ a.length ≤ 2 ^ 30 ∧ (HasPair a x ∨ DoublesFit a x) := by
  by_cases short : a.length ≤ 2 ^ 30
  · rw [findsPairs_of_short fits short, and_iff_right short]
  · refine iff_of_false ?_ fun both => short both.1
    rintro ⟨sorted, ending, ran, -⟩
    rw [mergesort_overflow (by omega)] at ran
    cases ran

/-- Two elements fit. -/
theorem pairsFit_pair {u v : Int32} (fits : IsInt (u.toInt + v.toInt)) : PairsFit [u, v] := by
  refine pairwise_iff_getElem?.mp ?_
  rw [List.pairwise_pair]
  exact fits

/-- The pair 20 and 5 is found. -/
theorem find_sum_twenty_five : FindsPairs (fun _ => 0) [20, 5] 25 :=
  (find_sum_iff (fun _ => 0) [20, 5] 25 (pairsFit_pair (by decide))).mpr
    ⟨by decide, Or.inl ⟨0, 1, 20, 5, by decide, rfl, rfl, by decide⟩⟩

/-- With `x` as 10 the element 5 is taken twice. -/
theorem find_sum_takes_twice : ¬ FindsPairs (fun _ => 0) [20, 5] 10 := by
  rw [findsPairs_of_short (pairsFit_pair (by decide)) (by decide)]
  rintro (pair | doubles)
  · obtain ⟨p, q, less, high, sum⟩ := hasPair_iff.mp pair
    obtain ⟨rfl, rfl⟩ : p = 0 ∧ q = 1 := by
      simp only [List.length_cons, List.length_nil] at high
      omega
    exact absurd sum (by decide)
  · exact (doubles 5 (by decide)).1 (by decide)

end CodeLearning.Sorting
