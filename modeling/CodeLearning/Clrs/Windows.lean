import CodeLearning.Clrs.SubRange

/-!
# The windows that are reported

Besides the greatest sum the three algorithms report the ends of a window. `bmaxsubarray` writes the
ends only when it finds a sum greater than the first element, and starts with that element as the
greatest sum: where no window exceeds it, the ends that are returned were never written.
-/

namespace CodeLearning.MaxSubarray

open CInt CountedLoop

/-- A result names a window whose sum it is. -/
def Names (arr : List Int) (sub : Subarr) : Prop :=
  ∃ left right, sub = ⟨some left, some right, windowSum arr left (right + 1)⟩ ∧ left ≤ right ∧
    right < arr.length

variable {arr : List Int}

/-! ## All windows -/

/-- What `bmaxsubarray` has found: nothing that exceeds the first element, or a window that does. -/
def Found (arr : List Int) (first : Int) (sub : Subarr) : Prop :=
  sub = ⟨none, none, first⟩ ∨ (Names arr sub ∧ first < sub.max)

/-- It is not less than the first element. -/
theorem Found.first_le {first : Int} {sub : Subarr} (found : Found arr first sub) :
    first ≤ sub.max := by
  rcases found with rfl | ⟨-, less⟩
  · exact Int.le_refl _
  · exact Int.le_of_lt less

/-- A round of the inner loop. -/
theorem Found.round {first : Int} {i j : Nat} {state : Int × Subarr} (fits : SumsFit arr)
    (low : i ≤ j) (inside : j < arr.length)
    (inv : state.1 = prefixSum arr j - prefixSum arr i ∧ Found arr first state.2) :
    ∃ state', bRound arr i state j = some state' ∧
      state'.1 = prefixSum arr (j + 1) - prefixSum arr i ∧ Found arr first state'.2 := by
  obtain ⟨tmp, sub⟩ := state
  obtain ⟨rfl, found⟩ := inv
  have above := found.first_le
  refine ⟨_, bRound_eq fits low inside, rfl, ?_⟩
  simp only at above ⊢
  by_cases better : prefixSum arr (j + 1) - prefixSum arr i > sub.max
  · rw [if_pos better]
    have sum : windowSum arr i (j + 1) = prefixSum arr (j + 1) - prefixSum arr i :=
      windowSum_eq (by omega)
    refine .inr ⟨⟨i, j, ?_, low, inside⟩, ?_⟩
    · rw [sum]
    · simp only
      omega
  · rw [if_neg better]
    exact found

/-- `bmaxsubarray` keeps to what it has found. -/
theorem bmaxsubarray_found (fits : SumsFit arr) (positive : 0 < arr.length) :
    ∃ sub, bmaxsubarray arr = some sub ∧ Found arr arr[0] sub := by
  have step : ∀ i sub, 0 ≤ i → i < 0 + arr.length → Found arr arr[0] sub →
      ∃ sub', (do
        let state ← (List.range' i (arr.length - i)).foldlM (bRound arr i) (0, sub)
        return state.2 : Option Subarr) = some sub' ∧ Found arr arr[0] sub' := by
    intro i sub _ below found
    have init : (0 : Int) = prefixSum arr i - prefixSum arr i ∧ Found arr arr[0] sub :=
      ⟨(Int.sub_self _).symm, found⟩
    obtain ⟨state, ran, -, found'⟩ := foldlM_range' (k := arr.length - i) (s := (0, sub))
      (fun j (state : Int × Subarr) =>
        state.1 = prefixSum arr j - prefixSum arr i ∧ Found arr arr[0] state.2) init
      fun j state above below inv => Found.round fits above (by omega) inv
    refine ⟨state.2, ?_, found'⟩
    simp only [ran]
    rfl
  obtain ⟨sub, ran, found⟩ := foldlM_range' (fun _ sub => Found arr arr[0] sub)
    (Or.inl rfl : Found arr arr[0] ⟨none, none, arr[0]⟩) step
  refine ⟨sub, ?_, found⟩
  rw [bmaxsubarray, List.getElem?_eq_getElem positive]
  exact ran

/-- `bmaxsubarray` names a window exactly when one exceeds the first element. -/
theorem bmaxsubarray_names_iff (nonempty : arr ≠ []) (fits : SumsFit arr) :
    (∃ sub, bmaxsubarray arr = some sub ∧ Names arr sub) ↔
      ∃ j ≤ arr.length, ∃ i < j, windowSum arr 0 1 < windowSum arr i j := by
  have positive : 0 < arr.length := List.length_pos_iff.mpr nonempty
  have first : windowSum arr 0 1 = arr[0] := windowSum_element positive
  obtain ⟨sub, returned, found⟩ := bmaxsubarray_found fits positive
  obtain ⟨sub', returned', greatest⟩ := bmaxsubarray_spec fits nonempty
  obtain rfl : sub = sub' := Option.some.inj (returned.symm.trans returned')
  rw [first]
  constructor
  · rintro ⟨sub'', returned'', left, right, rfl, order, inside⟩
    rw [returned] at returned''
    obtain rfl := Option.some.inj returned''
    rcases found with unwritten | ⟨-, less⟩
    · cases unwritten
    · exact ⟨right + 1, inside, left, by omega, less⟩
  · rintro ⟨j, high, i, low, less⟩
    refine ⟨sub, returned, ?_⟩
    have atLeast := greatest.greatest j high i low
    rcases found with rfl | ⟨names, -⟩
    · simp only at atLeast
      omega
    · exact names

/-! ## Divide and conquer -/

/-- `dmaxsubarray` names a window, unless the middle overflows. -/
theorem dmaxsubarray_names_iff (nonempty : arr ≠ []) (fits : SumsFit arr) :
    (∃ sub, dmaxsubarray arr = some sub ∧ Names arr sub) ↔ arr.length ≤ 2 ^ 30 := by
  have positive : 0 < arr.length := List.length_pos_iff.mpr nonempty
  constructor
  · rintro ⟨sub, returned, -⟩
    by_contra long
    rw [dmaxsubarray, maxsubarr_overflow (by omega) (by omega)] at returned
    cases returned
  · intro short
    obtain ⟨left, right, returned, order, inside, -⟩ :=
      maxsubarr_of_fits positive (Nat.le_refl _) (fits.divideFits short (Nat.le_refl _))
    exact ⟨_, returned, left, right, rfl, order, inside⟩

/-! ## One scan -/

/-- The first loop keeps to windows. -/
theorem lScan_names {i : Nat} {sub : Subarr} (names : Names arr sub) :
    Names arr (lScan arr i sub).2 := by
  fun_induction lScan arr i sub with
  | case1 i sub inside positive => exact names
  | case2 i sub inside notPositive later =>
    apply later
    split
    · exact ⟨i, i, by rw [windowSum_element inside], Nat.le_refl i, inside⟩
    · exact names
  | case3 i sub outside => exact names

/-- The second loop keeps to windows. -/
theorem lLoop_names {left right : Nat} {tmp : Int} {sub final : Subarr} (order : left ≤ right)
    (sum : tmp = prefixSum arr right - prefixSum arr left) (names : Names arr sub)
    (returned : lLoop arr left right tmp sub = some final) : Names arr final := by
  fun_induction lLoop arr left right tmp sub with
  | case1 left right tmp sub inside overflow => cases returned
  | case2 left right tmp sub inside tmp' added positive later =>
    have next := prefixSum_succ inside
    have total : tmp' = prefixSum arr (right + 1) - prefixSum arr left := by
      rw [checked] at added
      split at added
      · rw [← Option.some.inj added, sum, next]
        omega
      · cases added
    refine later (by omega) total ?_ returned
    split
    · exact ⟨left, right, by rw [total, windowSum_eq (by omega)], order, inside⟩
    · exact names
  | case3 left right tmp sub inside tmp' added notPositive later =>
    exact later (Nat.le_refl _) (Int.sub_self _).symm names returned
  | case4 left right tmp sub outside =>
    obtain rfl := Option.some.inj returned
    exact names

/-- `lmaxsubarray` names a window. -/
theorem lmaxsubarray_names (nonempty : arr ≠ []) (fits : SumsFit arr) :
    ∃ sub, lmaxsubarray arr = some sub ∧ Names arr sub := by
  have positive : 0 < arr.length := List.length_pos_iff.mpr nonempty
  have first : Names arr ⟨some 0, some 0, arr[0]⟩ :=
    ⟨0, 0, by rw [windowSum_element positive], Nat.le_refl 0, positive⟩
  obtain ⟨sub, returned, -⟩ := lmaxsubarray_spec fits nonempty
  refine ⟨sub, returned, ?_⟩
  rw [lmaxsubarray, List.getElem?_eq_getElem positive, Option.bind_eq_bind, Option.bind_some]
    at returned
  by_cases above : arr[0] > 0
  · rw [lScan, dif_pos positive, if_pos above] at returned
    exact lLoop_names (Nat.le_refl 0) (Int.sub_self _).symm first returned
  · have named : Names arr (lScan arr 0 ⟨none, none, arr[0]⟩).2 := by
      rw [lScan, dif_pos positive, if_neg above, if_pos (Int.le_refl _)]
      exact lScan_names first
    cases found : lScan arr 0 ⟨none, none, arr[0]⟩ with
    | mk sign last =>
      rw [found] at returned named
      cases sign with
      | true => exact lLoop_names (Nat.le_refl 0) (Int.sub_self _).symm first returned
      | false =>
        obtain rfl := Option.some.inj returned
        exact named

/-! ## All three -/

/-- A function returns ends that were written, of a window with the sum that it returns. -/
def Reports (arr : List Int) (result : Option Subarr) : Prop :=
  ∃ left right max, result = some ⟨some left, some right, max⟩ ∧ left ≤ right ∧
    right < arr.length ∧ windowSum arr left (right + 1) = max

/-- The results that name a window. -/
theorem reports_iff {result : Option Subarr} :
    Reports arr result ↔ ∃ sub, result = some sub ∧ Names arr sub := by
  constructor
  · rintro ⟨left, right, max, rfl, order, inside, rfl⟩
    exact ⟨_, rfl, left, right, rfl, order, inside⟩
  · rintro ⟨sub, rfl, left, right, rfl, order, inside⟩
    exact ⟨left, right, _, rfl, order, inside, rfl⟩

/-- For a non-empty array whose window sums are of type `int`: the three algorithms report windows
with the sums that they return exactly when some window has a greater sum than the first element
alone, and the array has at most `2 ^ 30` elements. -/
theorem reported_windows_iff (arr : List Int) (nonempty : arr ≠ []) (fits : SumsFit arr) :
    (Reports arr (bmaxsubarray arr) ∧ Reports arr (dmaxsubarray arr) ∧
        Reports arr (lmaxsubarray arr)) ↔
      (∃ j ≤ arr.length, ∃ i < j, windowSum arr 0 1 < windowSum arr i j) ∧
        arr.length ≤ 2 ^ 30 := by
  rw [reports_iff, reports_iff, reports_iff, bmaxsubarray_names_iff nonempty fits,
    dmaxsubarray_names_iff nonempty fits]
  constructor
  · rintro ⟨exceeds, short, -⟩
    exact ⟨exceeds, short⟩
  · rintro ⟨exceeds, short⟩
    exact ⟨exceeds, short, lmaxsubarray_names nonempty fits⟩

/-- Three elements, with a window that exceeds the first one. -/
theorem reported_windows_mixed : SumsFit mixed ∧ Reports mixed (bmaxsubarray mixed) ∧
    Reports mixed (dmaxsubarray mixed) ∧ Reports mixed (lmaxsubarray mixed) := by
  have fits : SumsFit mixed := by
    unfold SumsFit
    decide
  refine ⟨fits, (reported_windows_iff mixed (by decide) fits).mpr ⟨⟨3, ?_, 2, ?_, ?_⟩, ?_⟩⟩
  · decide
  · decide
  · decide
  · decide

/-- One element: `bmaxsubarray` returns ends that were never written. -/
theorem reported_windows_single : SumsFit [7] ∧
    bmaxsubarray [7] = some ⟨none, none, 7⟩ ∧ ¬ Reports [7] (bmaxsubarray [7]) := by
  have returned : bmaxsubarray [7] = some ⟨none, none, 7⟩ := rfl
  refine ⟨?_, returned, ?_⟩
  · unfold SumsFit
    decide
  · rintro ⟨left, right, max, written, -⟩
    rw [returned] at written
    cases written

end CodeLearning.MaxSubarray
