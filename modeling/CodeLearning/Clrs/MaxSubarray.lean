import CodeLearning.Lib.CInt
import CodeLearning.Lib.CountedLoop
import Mathlib.Algebra.BigOperators.Group.List.Basic
import Mathlib.Algebra.Order.Ring.Int

/-!
# Maximum subarrays

Three algorithms look for the contiguous window with the largest sum: one tries all windows, one
divides the array and looks for the windows that cross the middle, and one scans it once. Sums are
of type `int`, and a sum that leaves its range has no defined result. So is the sum of the two ends
from which `maxsubarr` computes the middle: it leaves the range near the end of an array of more
than `2 ^ 30` elements.
-/

namespace CodeLearning.MaxSubarray

open CInt CountedLoop

/-- A `subarr`; an end is `none` as long as nothing was written to it. -/
structure Subarr where
  /-- `left`. -/
  left : Option Nat
  /-- `right`. -/
  right : Option Nat
  /-- `max`. -/
  max : Int

/-- A round of the inner loop of `bmaxsubarray`, with `tmp` and `sub`. -/
def bRound (arr : List Int) (i : Nat) (state : Int × Subarr) (j : Nat) :
    Option (Int × Subarr) := do
  let x ← arr[j]?
  let tmp ← checked (state.1 + x)
  return (tmp, if tmp > state.2.max then ⟨some i, some j, tmp⟩ else state.2)

/-- `bmaxsubarray`. -/
def bmaxsubarray (arr : List Int) : Option Subarr := do
  let first ← arr[0]?
  (List.range' 0 arr.length).foldlM (fun sub i => do
    let state ← (List.range' i (arr.length - i)).foldlM (bRound arr i) (0, sub)
    return state.2) ⟨none, none, first⟩

/-- A round of a loop of `maxcross` that adds the element at an index, in a memory in which not
every element can be read: `tmp`, the greatest value of it and the index where it was reached. -/
def crossRoundOn (read : Nat → Option Int) (state : Int × Int × Nat) (i : Nat) :
    Option (Int × Int × Nat) := do
  let x ← read i
  let tmp ← checked (state.1 + x)
  return (tmp, if tmp > state.2.1 then (tmp, i) else state.2)

/-- `maxcross` in such a memory; the loop to the left goes down to the start of the array. -/
def maxcrossOn (read : Nat → Option Int) (_beg mid stop : Nat) : Option Subarr := do
  let maxleft ← read (mid - 1)
  let left ← (List.range' 0 mid).foldlM (fun state k => crossRoundOn read state (mid - 1 - k))
    (0, maxleft, mid - 1)
  let maxright ← read mid
  let right ← (List.range' mid (stop - mid)).foldlM (crossRoundOn read) (0, maxright, mid)
  let max ← checked (right.2.1 + left.2.1)
  return ⟨some left.2.2, some right.2.2, max⟩

/-- `max`. -/
def maxSubarr (left right middle : Subarr) : Subarr :=
  let max := if left.max < right.max then right else left
  if max.max < middle.max then middle else max

/-- `maxsubarr` in such a memory. -/
def maxsubarrOn (read : Nat → Option Int) (beg stop : Nat) : Option Subarr :=
  if beg + 1 < stop then
    if beg + stop ≤ intMax then do
      let mid := (beg + stop) / 2
      let left ← maxsubarrOn read beg mid
      let right ← maxsubarrOn read mid stop
      let middle ← maxcrossOn read beg mid stop
      return maxSubarr left right middle
    else none
  else (read beg).map fun x => ⟨some beg, some (stop - 1), x⟩
termination_by stop - beg

/-- A round of a loop of `maxcross` on an array. -/
def crossRound (arr : List Int) : Int × Int × Nat → Nat → Option (Int × Int × Nat) :=
  crossRoundOn fun i => arr[i]?

/-- `maxcross`. -/
def maxcross (arr : List Int) (beg mid stop : Nat) : Option Subarr :=
  maxcrossOn (fun i => arr[i]?) beg mid stop

/-- `maxsubarr`. -/
def maxsubarr (arr : List Int) (beg stop : Nat) : Option Subarr :=
  maxsubarrOn (fun i => arr[i]?) beg stop

/-- `maxcross`, with its rounds. -/
theorem maxcross_rounds (arr : List Int) (beg mid stop : Nat) : maxcross arr beg mid stop = (do
    let maxleft ← arr[mid - 1]?
    let left ← (List.range' 0 mid).foldlM (fun state k => crossRound arr state (mid - 1 - k))
      (0, maxleft, mid - 1)
    let maxright ← arr[mid]?
    let right ← (List.range' mid (stop - mid)).foldlM (crossRound arr) (0, maxright, mid)
    let max ← checked (right.2.1 + left.2.1)
    return ⟨some left.2.2, some right.2.2, max⟩) := rfl

/-- `maxsubarr`, with its calls. -/
theorem maxsubarr_eq (arr : List Int) (beg stop : Nat) : maxsubarr arr beg stop =
    if beg + 1 < stop then
      if beg + stop ≤ intMax then do
        let left ← maxsubarr arr beg ((beg + stop) / 2)
        let right ← maxsubarr arr ((beg + stop) / 2) stop
        let middle ← maxcross arr beg ((beg + stop) / 2) stop
        return maxSubarr left right middle
      else none
    else arr[beg]?.map fun x => ⟨some beg, some (stop - 1), x⟩ := by
  rw [maxsubarr, maxsubarrOn]
  rfl

/-- `dmaxsubarray`. -/
def dmaxsubarray (arr : List Int) : Option Subarr := maxsubarr arr 0 arr.length

/-- The first loop of `lmaxsubarray`: whether an element is positive, and `sub`. -/
def lScan (arr : List Int) (i : Nat) (sub : Subarr) : Bool × Subarr :=
  if inside : i < arr.length then
    if arr[i] > 0 then (true, sub)
    else lScan arr (i + 1) (if arr[i] ≥ sub.max then ⟨some i, some i, arr[i]⟩ else sub)
  else (false, sub)
termination_by arr.length - i

/-- The second loop of `lmaxsubarray`, with the ends and the sum of `tmp`. -/
def lLoop (arr : List Int) (left right : Nat) (tmp : Int) (sub : Subarr) : Option Subarr :=
  if inside : right < arr.length then
    match checked (tmp + arr[right]) with
    | none => none
    | some tmp =>
      if tmp > 0 then
        lLoop arr left (right + 1) tmp (if tmp ≥ sub.max then ⟨some left, some right, tmp⟩ else sub)
      else lLoop arr (right + 1) (right + 1) 0 sub
  else some sub
termination_by arr.length - right

/-- `lmaxsubarray`. -/
def lmaxsubarray (arr : List Int) : Option Subarr := do
  let first ← arr[0]?
  let (positive, sub) := lScan arr 0 ⟨none, none, first⟩
  if positive then lLoop arr 0 0 0 ⟨some 0, some 0, first⟩ else return sub

/-! ## Windows -/

/-- The sum of the elements from one index up to another. -/
def windowSum (arr : List Int) (i j : Nat) : Int := ((arr.drop i).take (j - i)).sum

/-- The sums of all windows are of type `int`. -/
def SumsFit (arr : List Int) : Prop := ∀ j ≤ arr.length, ∀ i < j, IsInt (windowSum arr i j)

/-- The greatest sum of a window. -/
structure IsMaxSum (arr : List Int) (v : Int) : Prop where
  /-- It is the sum of a window. -/
  reached : ∃ j ≤ arr.length, ∃ i < j, windowSum arr i j = v
  /-- No window has a greater one. -/
  greatest : ∀ j ≤ arr.length, ∀ i < j, windowSum arr i j ≤ v

section Windows

variable {arr : List Int} {i j : Nat}

/-- The sum of the first elements. -/
def prefixSum (arr : List Int) (i : Nat) : Int := (arr.take i).sum

/-- The sum of a window is a difference of sums from the start. -/
theorem windowSum_eq (le : i ≤ j) : windowSum arr i j = prefixSum arr j - prefixSum arr i := by
  obtain ⟨k, rfl⟩ := Nat.exists_eq_add_of_le le
  rw [windowSum, prefixSum, prefixSum, List.take_add, List.sum_append, Nat.add_sub_cancel_left]
  omega

/-- One more element. -/
theorem prefixSum_succ (inside : i < arr.length) :
    prefixSum arr (i + 1) = prefixSum arr i + arr[i] := List.sum_take_succ arr i inside

/-- A window sum is in range. -/
theorem SumsFit.checked (fits : SumsFit arr) (low : i < j) (high : j ≤ arr.length) :
    checked (prefixSum arr j - prefixSum arr i) = some (prefixSum arr j - prefixSum arr i) := by
  have here := fits j high i low
  rw [windowSum_eq (Nat.le_of_lt low)] at here
  exact if_pos here

/-- A value that is the sum of a window. -/
def Reached (arr : List Int) (v : Int) : Prop :=
  ∃ i j, i < j ∧ j ≤ arr.length ∧ v = prefixSum arr j - prefixSum arr i

/-- A value that is reached and that no window exceeds is the greatest sum. -/
theorem isMaxSum_of_reached {v : Int} (reached : Reached arr v)
    (greatest : ∀ i j, i < j → j ≤ arr.length → prefixSum arr j - prefixSum arr i ≤ v) :
    IsMaxSum arr v := by
  obtain ⟨i, j, low, high, equal⟩ := reached
  refine ⟨⟨j, high, i, low, ?_⟩, ?_⟩
  · rw [windowSum_eq (Nat.le_of_lt low), equal]
  · intro j high i low
    rw [windowSum_eq (Nat.le_of_lt low)]
    exact greatest i j low high

/-- An element is the sum of a window. -/
theorem reached_element (inside : i < arr.length) : Reached arr arr[i] := by
  have next := prefixSum_succ inside
  exact ⟨i, i + 1, Nat.lt_succ_self i, inside, by omega⟩

end Windows

/-! ## All windows -/

section BruteForce

variable {arr : List Int} {i j : Nat} {sub : Subarr}

/-- A round of the inner loop goes on to the next window from `i`. -/
theorem bRound_eq (fits : SumsFit arr) (low : i ≤ j) (inside : j < arr.length) :
    bRound arr i (prefixSum arr j - prefixSum arr i, sub) j =
      some (prefixSum arr (j + 1) - prefixSum arr i,
        if prefixSum arr (j + 1) - prefixSum arr i > sub.max
          then ⟨some i, some j, prefixSum arr (j + 1) - prefixSum arr i⟩ else sub) := by
  have next := prefixSum_succ inside
  have sum : prefixSum arr j - prefixSum arr i + arr[j] =
      prefixSum arr (j + 1) - prefixSum arr i := by omega
  simp only [bRound, List.getElem?_eq_getElem inside, Option.bind_eq_bind, Option.bind_some, sum,
    fits.checked (Nat.lt_succ_of_le low) inside]
  rfl

/-- Before the round of the inner loop for `j`: the windows from `i` up to `j` were tried. -/
structure BInner (arr : List Int) (i : Nat) (sub : Subarr) (j : Nat) (state : Int × Subarr) :
    Prop where
  /-- `tmp` is the sum of the window up to `j`. -/
  sum : state.1 = prefixSum arr j - prefixSum arr i
  /-- The greatest sum so far is one of a window. -/
  reached : Reached arr state.2.max
  /-- It is not less than before the loop. -/
  more : sub.max ≤ state.2.max
  /-- It is not less than the sums that were tried. -/
  tried : ∀ j', i < j' → j' ≤ j → prefixSum arr j' - prefixSum arr i ≤ state.2.max

/-- A round of the inner loop. -/
theorem BInner.round {state : Int × Subarr} (fits : SumsFit arr) (low : i ≤ j)
    (inside : j < arr.length) (inv : BInner arr i sub j state) :
    ∃ state', bRound arr i state j = some state' ∧ BInner arr i sub (j + 1) state' := by
  obtain ⟨tmp, best⟩ := state
  obtain ⟨rfl, reached, more, tried⟩ := inv
  rw [bRound_eq fits low inside]
  by_cases better : prefixSum arr (j + 1) - prefixSum arr i > best.max
  · rw [if_pos better]
    refine ⟨_, rfl, rfl, ⟨i, j + 1, by omega, inside, rfl⟩, by simp only at more ⊢; omega, ?_⟩
    intro j' low high
    rcases Nat.lt_or_eq_of_le high with before | rfl
    · have here := tried j' low (by omega)
      simp only at here ⊢
      omega
    · exact Int.le_refl _
  · rw [if_neg better]
    refine ⟨_, rfl, rfl, reached, more, ?_⟩
    intro j' low high
    rcases Nat.lt_or_eq_of_le high with before | rfl
    · exact tried j' low (by omega)
    · simp only
      omega

/-- The inner loop tries all windows from `i`. -/
theorem bInner_spec (fits : SumsFit arr) (low : i ≤ arr.length) (reached : Reached arr sub.max) :
    ∃ state, (List.range' i (arr.length - i)).foldlM (bRound arr i) (0, sub) = some state ∧
      BInner arr i sub arr.length state := by
  have init : BInner arr i sub i (0, sub) :=
    ⟨by omega, reached, Int.le_refl _, fun j' low high => by omega⟩
  have step : ∀ j state, i ≤ j → j < i + (arr.length - i) → BInner arr i sub j state →
      ∃ state', bRound arr i state j = some state' ∧ BInner arr i sub (j + 1) state' :=
    fun j state above below inv => inv.round fits above (by omega)
  have loop := foldlM_range' (BInner arr i sub) init step
  rw [Nat.add_sub_cancel' low] at loop
  exact loop

/-- Before the round of the outer loop for `i`: the windows from smaller indices were tried. -/
def BOuter (arr : List Int) (i : Nat) (sub : Subarr) : Prop :=
  Reached arr sub.max ∧ ∀ i' j, i' < i → i' < j → j ≤ arr.length →
    prefixSum arr j - prefixSum arr i' ≤ sub.max

/-- `bmaxsubarray` returns the greatest sum. -/
theorem bmaxsubarray_spec (fits : SumsFit arr) (nonempty : arr ≠ []) :
    ∃ sub, bmaxsubarray arr = some sub ∧ IsMaxSum arr sub.max := by
  have positive : 0 < arr.length := List.length_pos_iff.mpr nonempty
  have init : BOuter arr 0 ⟨none, none, arr[0]⟩ :=
    ⟨reached_element positive, fun i' j low => by omega⟩
  have step : ∀ i sub, 0 ≤ i → i < 0 + arr.length → BOuter arr i sub →
      ∃ sub', (do
        let state ← (List.range' i (arr.length - i)).foldlM (bRound arr i) (0, sub)
        return state.2 : Option Subarr) = some sub' ∧ BOuter arr (i + 1) sub' := by
    intro i sub _ below ⟨reached, all⟩
    obtain ⟨state, inner, inv⟩ := bInner_spec (i := i) fits (by omega) reached
    refine ⟨state.2, ?_, inv.reached, ?_⟩
    · simp only [inner]
      rfl
    · intro i' j before low high
      rcases Nat.lt_or_eq_of_le (Nat.le_of_lt_succ before) with earlier | rfl
      · exact Int.le_trans (all i' j earlier low high) inv.more
      · exact inv.tried j low high
  obtain ⟨sub, loop, reached, all⟩ := foldlM_range' (BOuter arr) init step
  refine ⟨sub, ?_, isMaxSum_of_reached reached fun i j low high => all i j (by omega) low high⟩
  rw [bmaxsubarray, List.getElem?_eq_getElem positive]
  exact loop

end BruteForce

/-! ## Windows across the middle -/

section Cross

variable {arr : List Int} {mid stop i j k : Nat}

/-- A round of a loop of `maxcross` that reaches a window sum. -/
theorem crossRound_eq {tmp next best : Int} {at_ : Nat} (inside : i < arr.length)
    (sum : tmp + arr[i] = next) (int : checked next = some next) :
    crossRound arr (tmp, best, at_) i =
      some (next, if next > best then (next, i) else (best, at_)) := by
  simp only [crossRound, crossRoundOn, List.getElem?_eq_getElem inside, Option.bind_eq_bind,
    Option.bind_some, sum, int]
  rfl

/-- Before the round of the loop to the right for `j`. -/
structure CrossRight (arr : List Int) (mid stop j : Nat) (state : Int × Int × Nat) : Prop where
  /-- `tmp` is the sum of the window from the middle up to `j`. -/
  sum : state.1 = prefixSum arr j - prefixSum arr mid
  /-- The greatest sum so far is one of a window. -/
  reached : ∃ j', mid < j' ∧ j' ≤ stop ∧ state.2.1 = prefixSum arr j' - prefixSum arr mid
  /-- It is not less than the sums that were tried. -/
  tried : ∀ j', mid < j' → j' ≤ j → prefixSum arr j' - prefixSum arr mid ≤ state.2.1

/-- A round of the loop to the right. -/
theorem CrossRight.round {state : Int × Int × Nat} (fits : SumsFit arr) (low : mid ≤ j)
    (inside : j < stop) (bound : stop ≤ arr.length) (inv : CrossRight arr mid stop j state) :
    ∃ state', crossRound arr state j = some state' ∧ CrossRight arr mid stop (j + 1) state' := by
  obtain ⟨tmp, best, at_⟩ := state
  obtain ⟨rfl, reached, tried⟩ := inv
  have here : j < arr.length := by omega
  have next := prefixSum_succ here
  have sum : prefixSum arr j - prefixSum arr mid + arr[j] =
      prefixSum arr (j + 1) - prefixSum arr mid := by omega
  have int := fits.checked (Nat.lt_succ_of_le low) here
  refine ⟨_, crossRound_eq here sum int, ?_⟩
  by_cases better : prefixSum arr (j + 1) - prefixSum arr mid > best
  · rw [if_pos better]
    refine ⟨rfl, ⟨j + 1, by omega, inside, rfl⟩, ?_⟩
    intro j' low high
    rcases Nat.lt_or_eq_of_le high with before | rfl
    · have earlier := tried j' low (by omega)
      simp only at earlier ⊢
      omega
    · exact Int.le_refl _
  · rw [if_neg better]
    refine ⟨rfl, reached, ?_⟩
    intro j' low high
    rcases Nat.lt_or_eq_of_le high with before | rfl
    · exact tried j' low (by omega)
    · simp only
      omega

/-- Before round `k` of the loop to the left. -/
structure CrossLeft (arr : List Int) (mid k : Nat) (state : Int × Int × Nat) : Prop where
  /-- `tmp` is the sum of the `k` elements before the middle. -/
  sum : state.1 = prefixSum arr mid - prefixSum arr (mid - k)
  /-- The greatest sum so far is one of a window. -/
  reached : ∃ i, i < mid ∧ state.2.1 = prefixSum arr mid - prefixSum arr i
  /-- It is not less than the sums that were tried. -/
  tried : ∀ i, mid - k ≤ i → i < mid → prefixSum arr mid - prefixSum arr i ≤ state.2.1

/-- A round of the loop to the left. -/
theorem CrossLeft.round {state : Int × Int × Nat} (fits : SumsFit arr) (inside : k < mid)
    (bound : mid < arr.length) (inv : CrossLeft arr mid k state) :
    ∃ state', crossRound arr state (mid - 1 - k) = some state' ∧
      CrossLeft arr mid (k + 1) state' := by
  obtain ⟨tmp, best, at_⟩ := state
  obtain ⟨rfl, reached, tried⟩ := inv
  have here : mid - 1 - k < arr.length := by omega
  have next := prefixSum_succ here
  have index : mid - 1 - k + 1 = mid - k := by omega
  have index' : mid - (k + 1) = mid - 1 - k := by omega
  rw [index] at next
  have sum : prefixSum arr mid - prefixSum arr (mid - k) + arr[mid - 1 - k] =
      prefixSum arr mid - prefixSum arr (mid - 1 - k) := by omega
  have int := fits.checked (show mid - 1 - k < mid by omega) (Nat.le_of_lt bound)
  refine ⟨_, crossRound_eq here sum int, ?_⟩
  by_cases better : prefixSum arr mid - prefixSum arr (mid - 1 - k) > best
  · rw [if_pos better]
    refine ⟨by rw [index'], ⟨mid - 1 - k, by omega, rfl⟩, ?_⟩
    intro i low high
    rcases Nat.lt_or_eq_of_le low with before | rfl
    · have earlier := tried i (by omega) high
      simp only at earlier ⊢
      omega
    · rw [index']
  · rw [if_neg better]
    refine ⟨by rw [index'], reached, ?_⟩
    intro i low high
    rcases Nat.lt_or_eq_of_le low with before | rfl
    · exact tried i (by omega) high
    · rw [index']
      simp only
      omega

/-- `maxcross` returns the sum of a window, and no window across the middle has a greater one. -/
theorem maxcross_spec (beg : Nat) (fits : SumsFit arr) (positive : 0 < mid)
    (inside : mid < stop) (bound : stop ≤ arr.length) :
    ∃ sub, maxcross arr beg mid stop = some sub ∧ Reached arr sub.max ∧
      ∀ i j, i < mid → mid < j → j ≤ stop → prefixSum arr j - prefixSum arr i ≤ sub.max := by
  have low : mid - 1 < arr.length := by omega
  have here : mid < arr.length := by omega
  have nextL := prefixSum_succ low
  have nextR := prefixSum_succ here
  rw [Nat.sub_add_cancel positive] at nextL
  have initL : CrossLeft arr mid 0 (0, arr[mid - 1], mid - 1) :=
    ⟨by simp, ⟨mid - 1, by omega, by simp only; omega⟩, fun i low high => by omega⟩
  have initR : CrossRight arr mid stop mid (0, arr[mid], mid) :=
    ⟨by omega, ⟨mid + 1, by omega, inside, by simp only; omega⟩, fun j low high => by omega⟩
  obtain ⟨left, loopL, invL⟩ := foldlM_range' (k := mid) (CrossLeft arr mid) initL
    fun k state _ below inv => inv.round fits (by omega) here
  obtain ⟨right, loopR, invR⟩ := foldlM_range' (k := stop - mid) (CrossRight arr mid stop) initR
    fun j state above below inv => inv.round fits above (by omega) bound
  obtain ⟨i, isLow, isLeft⟩ := invL.reached
  obtain ⟨j, isHigh, inStop, isRight⟩ := invR.reached
  have sum : right.2.1 + left.2.1 = prefixSum arr j - prefixSum arr i := by omega
  refine ⟨⟨some left.2.2, some right.2.2, prefixSum arr j - prefixSum arr i⟩, ?_,
    ⟨i, j, by omega, by omega, rfl⟩, ?_⟩
  · simp only [maxcross_rounds, List.getElem?_eq_getElem low, List.getElem?_eq_getElem here, loopL,
      loopR, Option.bind_eq_bind, Option.bind_some, sum,
      fits.checked (show i < j by omega) (show j ≤ arr.length by omega)]
    rfl
  · intro i' j' lowI lowJ highJ
    have atLeft := invL.tried i' (by omega) lowI
    have atRight := invR.tried j' lowJ (by omega)
    simp only
    omega

/-- The greatest of three. -/
theorem maxSubarr_spec (left right middle : Subarr) :
    (maxSubarr left right middle = left ∨ maxSubarr left right middle = right ∨
      maxSubarr left right middle = middle) ∧ left.max ≤ (maxSubarr left right middle).max ∧
      right.max ≤ (maxSubarr left right middle).max ∧
      middle.max ≤ (maxSubarr left right middle).max := by
  unfold maxSubarr
  simp only
  split_ifs <;> simp <;> omega

end Cross

/-! ## Divide and conquer -/

section Divide

variable {arr : List Int} {beg stop : Nat}

/-- Without overflow of the middle, `maxsubarr` returns the sum of a window, and no window between
its ends has a greater one. -/
theorem maxsubarr_spec (fits : SumsFit arr) (short : arr.length ≤ 2 ^ 30) (low : beg < stop)
    (high : stop ≤ arr.length) :
    ∃ sub, maxsubarr arr beg stop = some sub ∧ Reached arr sub.max ∧
      ∀ i j, beg ≤ i → i < j → j ≤ stop → prefixSum arr j - prefixSum arr i ≤ sub.max := by
  induction size : stop - beg using Nat.strong_induction_on generalizing beg stop with
  | _ size before =>
    rw [maxsubarr_eq]
    by_cases more : beg + 1 < stop
    · have noOverflow : beg + stop ≤ intMax := by
        unfold intMax
        omega
      rw [if_pos more, if_pos noOverflow]
      obtain ⟨left, isLeft, reachedL, allL⟩ := before _ (by omega)
        (show beg < (beg + stop) / 2 by omega) (by omega) rfl
      obtain ⟨right, isRight, reachedR, allR⟩ := before _ (by omega)
        (show (beg + stop) / 2 < stop by omega) high rfl
      obtain ⟨middle, isMiddle, reachedM, allM⟩ := maxcross_spec beg fits
        (show 0 < (beg + stop) / 2 by omega) (show (beg + stop) / 2 < stop by omega) high
      obtain ⟨chosen, moreL, moreR, moreM⟩ := maxSubarr_spec left right middle
      refine ⟨maxSubarr left right middle, ?_, ?_, ?_⟩
      · simp only [isLeft, isRight, isMiddle]
        rfl
      · rcases chosen with same | same | same
        · rwa [same]
        · rwa [same]
        · rwa [same]
      · intro i j lowI less highJ
        -- A window is in the left part, in the right part or across the middle.
        rcases Nat.lt_or_ge ((beg + stop) / 2) j with beyond | within
        · rcases Nat.lt_or_ge i ((beg + stop) / 2) with across | inside
          · exact Int.le_trans (allM i j across beyond highJ) moreM
          · exact Int.le_trans (allR i j inside less highJ) moreR
        · exact Int.le_trans (allL i j lowI less within) moreL
    · have here : beg < arr.length := by omega
      have next := prefixSum_succ here
      rw [if_neg more, List.getElem?_eq_getElem here]
      refine ⟨_, rfl, reached_element here, ?_⟩
      intro i j lowI less highJ
      obtain rfl : i = beg := by omega
      obtain rfl : j = i + 1 := by omega
      simp only
      omega

/-- In an array of more than `2 ^ 30` elements, the middle of the last two overflows. -/
theorem maxsubarr_overflow (long : 2 ^ 30 < arr.length) (low : beg + 1 < arr.length) :
    maxsubarr arr beg arr.length = none := by
  induction size : arr.length - beg using Nat.strong_induction_on generalizing beg with
  | _ size before =>
    rw [maxsubarr_eq, if_pos low]
    by_cases noOverflow : beg + arr.length ≤ intMax
    · have inner : (beg + arr.length) / 2 + 1 < arr.length := by
        unfold intMax at noOverflow
        omega
      have right := before _ (by omega) inner rfl
      rw [if_pos noOverflow]
      simp only [right]
      cases maxsubarr arr beg ((beg + arr.length) / 2) with
      | none => rfl
      | some left => rfl
    · rw [if_neg noOverflow]

end Divide

/-! ## One scan -/

section Linear

variable {arr : List Int} {i left right : Nat} {sub : Subarr} {tmp : Int}

/-- The first loop finds a positive element. -/
theorem lScan_true (found : (lScan arr i sub).1 = true) :
    ∃ k, ∃ inside : k < arr.length, 0 < arr[k] := by
  fun_induction lScan arr i sub with
  | case1 i sub inside positive => exact ⟨i, inside, positive⟩
  | case2 i sub inside notPositive before => exact before found
  | case3 i sub outside => cases found

/-- Without a positive element the first loop finds the greatest one. -/
theorem lScan_false (found : (lScan arr i sub).1 = false) (reached : Reached arr sub.max) :
    Reached arr (lScan arr i sub).2.max ∧ sub.max ≤ (lScan arr i sub).2.max ∧
      ∀ k, i ≤ k → ∀ inside : k < arr.length, arr[k] ≤ 0 ∧ arr[k] ≤ (lScan arr i sub).2.max := by
  fun_induction lScan arr i sub with
  | case1 i sub inside positive => cases found
  | case2 i sub inside notPositive before =>
    have next :
        Reached arr (if arr[i] ≥ sub.max then ⟨some i, some i, arr[i]⟩ else sub : Subarr).max ∧
        sub.max ≤ (if arr[i] ≥ sub.max then ⟨some i, some i, arr[i]⟩ else sub : Subarr).max ∧
        arr[i] ≤ (if arr[i] ≥ sub.max then ⟨some i, some i, arr[i]⟩ else sub : Subarr).max := by
      split
      · rename_i more
        exact ⟨reached_element inside, more, Int.le_refl _⟩
      · rename_i less
        exact ⟨reached, Int.le_refl _, by omega⟩
    obtain ⟨final, grows, all⟩ := before found next.1
    refine ⟨final, Int.le_trans next.2.1 grows, ?_⟩
    intro k low here
    rcases Nat.lt_or_eq_of_le low with later | rfl
    · exact all k later here
    · exact ⟨by omega, Int.le_trans next.2.2 grows⟩
  | case3 i sub outside =>
    exact ⟨reached, Int.le_refl _, fun k low inside => by omega⟩

/-- Without positive elements the sums from the start do not grow. -/
theorem prefixSum_antitone (all : ∀ k, ∀ inside : k < arr.length, arr[k] ≤ 0) {i j : Nat}
    (le : i ≤ j) (bound : j ≤ arr.length) : prefixSum arr j ≤ prefixSum arr i := by
  induction j, le using Nat.le_induction with
  | base => exact Int.le_refl _
  | succ j low before =>
    have inside : j < arr.length := by omega
    have next := prefixSum_succ inside
    have here := all j inside
    have earlier := before (by omega)
    omega

/-- Before a round of the second loop: `tmp` is the window from the least sum from the start so
far, and no window with a positive sum exceeds `sub`. -/
structure LInv (arr : List Int) (left right : Nat) (tmp : Int) (sub : Subarr) : Prop where
  /-- The window is in order. -/
  order : left ≤ right
  /-- `tmp` is its sum. -/
  sum : tmp = prefixSum arr right - prefixSum arr left
  /-- No sum from the start is less than that up to `left`. -/
  least : ∀ i ≤ right, prefixSum arr left ≤ prefixSum arr i
  /-- The greatest sum so far is one of a window. -/
  reached : Reached arr sub.max
  /-- The windows so far. -/
  tried : ∀ i j, i < j → j ≤ right →
    prefixSum arr j - prefixSum arr i ≤ sub.max ∨ prefixSum arr j - prefixSum arr i ≤ 0

/-- A round that keeps the window. -/
theorem LInv.extend (inv : LInv arr left right tmp sub) (inside : right < arr.length)
    (positive : tmp + arr[right] > 0) :
    LInv arr left (right + 1) (tmp + arr[right])
      (if tmp + arr[right] ≥ sub.max then ⟨some left, some right, tmp + arr[right]⟩ else sub) := by
  have next := prefixSum_succ inside
  have order := inv.order
  have sum : tmp + arr[right] = prefixSum arr (right + 1) - prefixSum arr left := by
    rw [inv.sum, next]
    omega
  rw [sum] at positive ⊢
  have best : sub.max ≤ (if prefixSum arr (right + 1) - prefixSum arr left ≥ sub.max
        then ⟨some left, some right, prefixSum arr (right + 1) - prefixSum arr left⟩
        else sub : Subarr).max ∧
      prefixSum arr (right + 1) - prefixSum arr left ≤
        (if prefixSum arr (right + 1) - prefixSum arr left ≥ sub.max
          then ⟨some left, some right, prefixSum arr (right + 1) - prefixSum arr left⟩
          else sub : Subarr).max := by
    split
    · rename_i more
      exact ⟨more, Int.le_refl _⟩
    · exact ⟨Int.le_refl _, by omega⟩
  refine ⟨by omega, rfl, ?_, ?_, ?_⟩
  · intro i bound
    rcases Nat.lt_or_eq_of_le bound with before | rfl
    · exact inv.least i (by omega)
    · omega
  · split
    · exact ⟨left, right + 1, by omega, inside, rfl⟩
    · exact inv.reached
  · intro i j less bound
    rcases Nat.lt_or_eq_of_le bound with before | rfl
    · rcases inv.tried i j less (by omega) with fine | small
      · exact Or.inl (Int.le_trans fine best.1)
      · exact Or.inr small
    · have least := inv.least i (by omega)
      left
      exact Int.le_trans (by omega) best.2

/-- A round that drops the window. -/
theorem LInv.restart (inv : LInv arr left right tmp sub) (inside : right < arr.length)
    (negative : ¬ tmp + arr[right] > 0) : LInv arr (right + 1) (right + 1) 0 sub := by
  have next := prefixSum_succ inside
  have sum := inv.sum
  have least := inv.least
  refine ⟨Nat.le_refl _, by omega, ?_, inv.reached, ?_⟩
  · intro i bound
    rcases Nat.lt_or_eq_of_le bound with before | rfl
    · have here := least i (by omega)
      omega
    · exact Int.le_refl _
  · intro i j less bound
    rcases Nat.lt_or_eq_of_le bound with before | rfl
    · exact inv.tried i j less (by omega)
    · have here := least i (by omega)
      right
      omega

/-- The second loop ends with the invariant for the whole array. -/
theorem lLoop_spec (fits : SumsFit arr) (bound : right ≤ arr.length)
    (inv : LInv arr left right tmp sub) :
    ∃ final, lLoop arr left right tmp sub = some final ∧
      ∃ left' tmp', LInv arr left' arr.length tmp' final := by
  induction size : arr.length - right using Nat.strong_induction_on
    generalizing left right tmp sub with
  | _ size before =>
    rw [lLoop]
    by_cases inside : right < arr.length
    · have next := prefixSum_succ inside
      have sum : tmp + arr[right] = prefixSum arr (right + 1) - prefixSum arr left := by
        rw [inv.sum, next]
        omega
      have int : checked (tmp + arr[right]) = some (tmp + arr[right]) := by
        rw [sum]
        exact fits.checked (Nat.lt_succ_of_le inv.order) inside
      rw [dif_pos inside, int]
      by_cases positive : tmp + arr[right] > 0
      · simp only [if_pos positive]
        exact before _ (by omega) inside (inv.extend inside positive) rfl
      · simp only [if_neg positive]
        exact before _ (by omega) inside (inv.restart inside positive) rfl
    · obtain rfl : right = arr.length := by omega
      rw [dif_neg inside]
      exact ⟨sub, rfl, left, tmp, inv⟩

/-- `lmaxsubarray` returns the greatest sum. -/
theorem lmaxsubarray_spec (fits : SumsFit arr) (nonempty : arr ≠ []) :
    ∃ sub, lmaxsubarray arr = some sub ∧ IsMaxSum arr sub.max := by
  have positive : 0 < arr.length := List.length_pos_iff.mpr nonempty
  have unfolded : lmaxsubarray arr =
      if (lScan arr 0 ⟨none, none, arr[0]⟩).1 then lLoop arr 0 0 0 ⟨some 0, some 0, arr[0]⟩
      else some (lScan arr 0 ⟨none, none, arr[0]⟩).2 := by
    rw [lmaxsubarray, List.getElem?_eq_getElem positive]
    rfl
  have reached := reached_element positive
  rw [unfolded]
  cases found : (lScan arr 0 ⟨none, none, arr[0]⟩).1 with
  | true =>
    have init : LInv arr 0 0 0 ⟨some 0, some 0, arr[0]⟩ :=
      ⟨Nat.le_refl _, by omega, fun i bound => by rw [Nat.le_zero.mp bound], reached,
        fun i j less bound => by omega⟩
    obtain ⟨final, loop, left, tmp, inv⟩ := lLoop_spec fits (Nat.zero_le _) init
    obtain ⟨k, inside, here⟩ := lScan_true found
    have next := prefixSum_succ inside
    -- The positive element is a window that `sub` is not less than.
    have atLeast : 0 < final.max := by
      rcases inv.tried k (k + 1) (by omega) inside with fine | small
      · omega
      · omega
    refine ⟨final, loop, isMaxSum_of_reached inv.reached ?_⟩
    intro i j low high
    rcases inv.tried i j low high with fine | small
    · exact fine
    · omega
  | false =>
    obtain ⟨isWindow, -, all⟩ := lScan_false found reached
    refine ⟨_, rfl, isMaxSum_of_reached isWindow ?_⟩
    intro i j low high
    have inside : i < arr.length := by omega
    have next := prefixSum_succ inside
    have here := (all i (Nat.zero_le i) inside).2
    have rest := prefixSum_antitone (fun k inside => (all k (Nat.zero_le k) inside).1)
      (show i + 1 ≤ j from low) high
    omega

end Linear

/-- The greatest sum is unique. -/
theorem IsMaxSum.unique {arr : List Int} {v w : Int} (first : IsMaxSum arr v)
    (second : IsMaxSum arr w) : v = w := by
  obtain ⟨j, high, i, low, equal⟩ := first.reached
  obtain ⟨j', high', i', low', equal'⟩ := second.reached
  have above := second.greatest j high i low
  have below := first.greatest j' high' i' low'
  omega

/-- The three algorithms return the greatest sum of a window. -/
def Agree (arr : List Int) : Prop :=
  ∃ v, IsMaxSum arr v ∧ (bmaxsubarray arr).map Subarr.max = some v ∧
    (dmaxsubarray arr).map Subarr.max = some v ∧ (lmaxsubarray arr).map Subarr.max = some v

/-- For a non-empty array whose window sums are of type `int`: the three algorithms return the
greatest sum of a window exactly when the array has at most `2 ^ 30` elements. -/
theorem maxsubarray_iff (arr : List Int) (nonempty : arr ≠ []) (fits : SumsFit arr) :
    Agree arr ↔ arr.length ≤ 2 ^ 30 := by
  constructor
  · rintro ⟨v, -, -, returned, -⟩
    by_contra long
    rw [dmaxsubarray, maxsubarr_overflow (by omega) (by omega)] at returned
    cases returned
  · intro short
    have positive : 0 < arr.length := List.length_pos_iff.mpr nonempty
    obtain ⟨brute, isBrute, maxB⟩ := bmaxsubarray_spec fits nonempty
    obtain ⟨divided, isDivided, reached, all⟩ :=
      maxsubarr_spec fits short positive (Nat.le_refl _)
    obtain ⟨linear, isLinear, maxL⟩ := lmaxsubarray_spec fits nonempty
    have maxD := isMaxSum_of_reached reached fun i j low high => all i j (Nat.zero_le i) low high
    refine ⟨brute.max, maxB, ?_, ?_, ?_⟩
    · rw [isBrute]
      rfl
    · rw [dmaxsubarray, isDivided, Option.map_some, maxD.unique maxB]
    · rw [isLinear, Option.map_some, maxL.unique maxB]

/-- An array with a positive and a negative element. -/
def mixed : List Int := [3, -5, 4]

/-- The algorithms agree on a short array. -/
theorem maxsubarray_mixed : SumsFit mixed ∧ Agree mixed := by
  have fits : SumsFit mixed := by
    unfold SumsFit
    decide
  exact ⟨fits, (maxsubarray_iff mixed (by decide) fits).mpr (by decide)⟩

/-- For `2 ^ 30 + 1` zeros `dmaxsubarray` computes a middle that overflows. -/
theorem maxsubarray_overflow : ∃ arr : List Int, arr ≠ [] ∧ arr.length = 2 ^ 30 + 1 ∧
    arr.length ≤ intMax ∧ SumsFit arr ∧ IsMaxSum arr 0 ∧ dmaxsubarray arr = none ∧ ¬ Agree arr := by
  have length : (List.replicate (2 ^ 30 + 1) (0 : Int)).length = 2 ^ 30 + 1 :=
    List.length_replicate
  generalize given : List.replicate (2 ^ 30 + 1) (0 : Int) = zeros at length
  have isInt : zeros.length ≤ intMax := by
    unfold intMax
    omega
  have sums : ∀ i j, windowSum zeros i j = 0 := by
    intro i j
    refine List.sum_eq_zero fun x mem => ?_
    rw [← given] at mem
    exact List.eq_of_mem_replicate (List.mem_of_mem_drop (List.mem_of_mem_take mem))
  have aborted : dmaxsubarray zeros = none := maxsubarr_overflow (by omega) (by omega)
  refine ⟨zeros, ?_, length, isInt, ?_, ⟨⟨1, by omega, 0, by omega, sums 0 1⟩, ?_⟩, aborted, ?_⟩
  · rintro rfl
    cases length
  · intro j _ i _
    rw [sums]
    decide
  · intro j _ i _
    rw [sums]
  · rintro ⟨v, -, -, returned, -⟩
    rw [aborted] at returned
    cases returned

end CodeLearning.MaxSubarray
