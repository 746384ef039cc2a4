import CodeLearning.Clrs.MaxSubarray

/-!
# Sub-ranges of the divide-and-conquer algorithm

`maxsubarr` is called for a part of the array, and `maxcross` for two parts that meet at the middle.
The loop of `maxcross` to the left goes down to the start of the array instead of `beg`. So
`maxcross` may return a window that starts before `beg`, and `maxsubarr` reads elements in front of
its range unless the range is a single element or starts at 0.
-/

namespace CodeLearning.MaxSubarray

open CInt CountedLoop

/-! ## What is read

The functions in a memory in which not every element can be read. -/

section Reads

variable {read read' : Nat → Option Int} {beg mid stop : Nat}

/-- Two loops whose rounds are the same. -/
theorem foldlM_congr {σ : Type} {body body' : σ → Nat → Option σ} {list : List Nat} (s : σ)
    (same : ∀ i ∈ list, ∀ s, body s i = body' s i) : list.foldlM body s = list.foldlM body' s := by
  induction list generalizing s with
  | nil => rfl
  | cons i rest later =>
    rw [List.foldlM_cons, List.foldlM_cons, same i List.mem_cons_self s]
    exact bind_congr fun s' => later s' fun j mem => same j (List.mem_cons_of_mem _ mem)

/-- `maxcross` reads only in front of its end. -/
theorem maxcrossOn_congr (inside : mid < stop) (same : ∀ i < stop, read i = read' i) :
    maxcrossOn read beg mid stop = maxcrossOn read' beg mid stop := by
  have left : ∀ k ∈ List.range' 0 mid, ∀ state,
      crossRoundOn read state (mid - 1 - k) = crossRoundOn read' state (mid - 1 - k) := by
    intro k _ state
    rw [crossRoundOn, same (mid - 1 - k) (by omega)]
    rfl
  have right : ∀ j ∈ List.range' mid (stop - mid), ∀ state,
      crossRoundOn read state j = crossRoundOn read' state j := by
    intro j mem state
    have below := (List.mem_range'_1.mp mem).2
    rw [crossRoundOn, same j (by omega)]
    rfl
  simp only [maxcrossOn, same (mid - 1) (by omega), same mid inside, foldlM_congr _ left,
    foldlM_congr _ right]

/-- `maxsubarr` reads only in front of its end. -/
theorem maxsubarrOn_congr (low : beg < stop) (same : ∀ i < stop, read i = read' i) :
    maxsubarrOn read beg stop = maxsubarrOn read' beg stop := by
  fun_induction maxsubarrOn read beg stop with
  | case1 beg stop more noOverflow mid inLeft inRight =>
    have left := inLeft (by omega) fun i below => same i (by omega)
    have right := inRight (by omega) same
    have middle : maxcrossOn read beg mid stop = maxcrossOn read' beg mid stop :=
      maxcrossOn_congr (by omega) same
    rw [maxsubarrOn.eq_def read', if_pos more, if_pos noOverflow]
    simp only [left, right, middle]
    rfl
  | case2 beg stop more overflow => rw [maxsubarrOn, if_pos more, if_neg overflow]
  | case3 beg stop single => rw [maxsubarrOn, if_neg single, same beg low]

/-- `maxcross` reads the first element. -/
theorem maxcrossOn_eq_none (positive : 0 < mid) (unreadable : read 0 = none) :
    maxcrossOn read beg mid stop = none := by
  unfold maxcrossOn
  cases read (mid - 1) with
  | none => rfl
  | some maxleft =>
    have fails : (List.range' 0 mid).foldlM
        (fun state k => crossRoundOn read state (mid - 1 - k)) (0, maxleft, mid - 1) = none := by
      refine foldlM_range'_eq_none (i := mid - 1) _ (by omega) (by omega) ?_
      intro state
      rw [Nat.sub_self, crossRoundOn, unreadable]
      rfl
    rw [Option.bind_eq_bind, Option.bind_some, fails]
    rfl

/-- So does `maxsubarr` for more than one element. -/
theorem maxsubarrOn_eq_none (more : beg + 1 < stop) (unreadable : read 0 = none) :
    maxsubarrOn read beg stop = none := by
  rw [maxsubarrOn, if_pos more]
  by_cases noOverflow : beg + stop ≤ intMax
  · have fails : maxcrossOn read beg ((beg + stop) / 2) stop = none :=
      maxcrossOn_eq_none (by omega) unreadable
    rw [if_pos noOverflow]
    simp only [fails]
    cases maxsubarrOn read beg ((beg + stop) / 2) with
    | none => rfl
    | some left =>
      cases maxsubarrOn read ((beg + stop) / 2) stop with
      | none => rfl
      | some right => rfl
  · rw [if_neg noOverflow]

end Reads

/-! ## What overflows -/

/-- The sums that `maxcross` forms are of type `int`: those of the windows that end or start at the
middle, and the greatest one of a window across it. -/
structure CrossFits (arr : List Int) (mid stop : Nat) : Prop where
  /-- The windows that end at the middle. -/
  left : ∀ i < mid, IsInt (windowSum arr i mid)
  /-- The windows that start at the middle. -/
  right : ∀ j, mid < j → j ≤ stop → IsInt (windowSum arr mid j)
  /-- The greatest sum of a window across the middle. -/
  across : ∀ i j, i < mid → mid < j → j ≤ stop →
    (∀ i' j', i' < mid → mid < j' → j' ≤ stop → windowSum arr i' j' ≤ windowSum arr i j) →
    IsInt (windowSum arr i j)

/-- The sums that `maxsubarr` forms are of type `int`, in all parts of the range. -/
def DivideFits (arr : List Int) (beg stop : Nat) : Prop :=
  if beg + 1 < stop then
    beg + stop ≤ intMax ∧ DivideFits arr beg ((beg + stop) / 2) ∧
      DivideFits arr ((beg + stop) / 2) stop ∧ CrossFits arr ((beg + stop) / 2) stop
  else True
termination_by stop - beg

/-- Where no window sum overflows, none of `maxcross` does. -/
theorem SumsFit.crossFits {arr : List Int} {mid stop : Nat} (fits : SumsFit arr)
    (inside : mid < stop) (high : stop ≤ arr.length) : CrossFits arr mid stop where
  left i before := fits mid (by omega) i before
  right j behind bound := fits j (by omega) mid behind
  across i j before behind bound _ := fits j (by omega) i (by omega)

/-- Where no window sum and no middle overflows, none of `maxsubarr` does. -/
theorem SumsFit.divideFits {arr : List Int} {beg stop : Nat} (fits : SumsFit arr)
    (short : arr.length ≤ 2 ^ 30) (high : stop ≤ arr.length) : DivideFits arr beg stop := by
  fun_induction DivideFits arr beg stop with
  | case1 beg stop more inLeft inRight =>
    have noOverflow : beg + stop ≤ intMax := by
      unfold intMax
      omega
    exact ⟨noOverflow, inLeft (by omega), inRight high, fits.crossFits (by omega) high⟩
  | case2 beg stop single => trivial

/-! ## Scans

The two loops of `maxcross` add elements one after the other and keep the greatest sum, with the
index where it was reached first. -/

section Scans

variable {arr : List Int} {index : Nat → Nat} {sum : Nat → Int} {n : Nat}

/-- The sums of a scan: one more element is added in each round. -/
structure Scans (arr : List Int) (index : Nat → Nat) (sum : Nat → Int) (n : Nat) : Prop where
  /-- Nothing is added at first. -/
  zero : sum 0 = 0
  /-- An element is added. -/
  next : ∀ k < n, ∃ x, arr[index k]? = some x ∧ sum (k + 1) = sum k + x

/-- Before a round of a scan. -/
structure Scanned (index : Nat → Nat) (sum : Nat → Int) (k : Nat) (state : Int × Int × Nat) :
    Prop where
  /-- `tmp` is the sum so far. -/
  total : state.1 = sum k
  /-- The greatest sum so far was reached at the index, and not before. -/
  reached : ∃ b, b < max k 1 ∧ state.2 = (sum (b + 1), index b) ∧
    ∀ k' < b, sum (k' + 1) < sum (b + 1)
  /-- It is not less than the sums so far. -/
  tried : ∀ k' < k, sum (k' + 1) ≤ state.2.1

/-- A round of a scan. -/
theorem Scanned.round {k : Nat} {state : Int × Int × Nat} (scans : Scans arr index sum n)
    (below : k < n) (int : IsInt (sum (k + 1))) (inv : Scanned index sum k state) :
    ∃ state', crossRound arr state (index k) = some state' ∧ Scanned index sum (k + 1) state' := by
  obtain ⟨tmp, best, place⟩ := state
  obtain ⟨rfl, ⟨b, early, same, strict⟩, tried⟩ := inv
  obtain ⟨x, element, next⟩ := scans.next k below
  obtain ⟨rfl, rfl⟩ : best = sum (b + 1) ∧ place = index b := Prod.mk.inj same
  have added : checked (sum k + x) = some (sum (k + 1)) := by
    rw [← next]
    exact if_pos int
  refine ⟨(sum (k + 1), if sum (k + 1) > sum (b + 1) then (sum (k + 1), index k)
    else (sum (b + 1), index b)), ?_, ?_⟩
  · simp only [crossRound, crossRoundOn, element, Option.bind_eq_bind, Option.bind_some, added]
    rfl
  by_cases better : sum (k + 1) > sum (b + 1)
  · rw [if_pos better]
    refine ⟨rfl, ⟨k, by omega, rfl, ?_⟩, ?_⟩
    · intro k' earlier
      have here := tried k' earlier
      simp only at here
      omega
    · intro k' upTo
      rcases Nat.lt_or_eq_of_le (Nat.le_of_lt_succ upTo) with earlier | rfl
      · have here := tried k' earlier
        simp only at here ⊢
        omega
      · exact Int.le_refl _
  · rw [if_neg better]
    refine ⟨rfl, ⟨b, by omega, rfl, strict⟩, ?_⟩
    intro k' upTo
    rcases Nat.lt_or_eq_of_le (Nat.le_of_lt_succ upTo) with earlier | rfl
    · exact tried k' earlier
    · simp only
      omega

/-- A scan whose sums are of type `int` finds the greatest one. -/
theorem scan_spec (scans : Scans arr index sum n) (positive : 0 < n)
    (ints : ∀ k < n, IsInt (sum (k + 1))) :
    ∃ b < n, (List.range' 0 n).foldlM (fun state k => crossRound arr state (index k))
        (0, sum 1, index 0) = some (sum n, sum (b + 1), index b) ∧
      (∀ k < n, sum (k + 1) ≤ sum (b + 1)) ∧ ∀ k < b, sum (k + 1) < sum (b + 1) := by
  have init : Scanned index sum 0 (0, sum 1, index 0) :=
    ⟨scans.zero.symm, ⟨0, by omega, rfl, fun k' below => by omega⟩, fun k' below => by omega⟩
  obtain ⟨⟨tmp, state⟩, ran, inv⟩ := foldlM_range' (k := n) (Scanned index sum) init
    fun k state _ below inv => inv.round scans (by omega) (ints k (by omega))
  rw [Nat.zero_add] at inv
  obtain ⟨b, early, same, strict⟩ := inv.reached
  have total : tmp = sum n := inv.total
  simp only at same
  refine ⟨b, by omega, ?_, ?_, strict⟩
  · rw [ran, total, same]
  · intro k below
    have here := inv.tried k below
    rw [same] at here
    exact here

/-- A scan that succeeds has sums of type `int`. -/
theorem ints_of_scan (scans : Scans arr index sum n) {start state : Int × Int × Nat}
    (zero : start.1 = 0) (ran : (List.range' 0 n).foldlM
      (fun state k => crossRound arr state (index k)) start = some state) :
    ∀ k < n, IsInt (sum (k + 1)) := by
  have inv := foldlM_range'_of_some
    (fun k (state : Int × Int × Nat) => state.1 = sum k ∧ ∀ k' < k, IsInt (sum (k' + 1)))
    ⟨zero.trans scans.zero.symm, fun k' below => by omega⟩ ?_ ran
  · intro k below
    exact inv.2 k (by omega)
  · rintro k ⟨tmp, best⟩ state' - below ⟨same, ints⟩ round
    obtain ⟨x, element, next⟩ := scans.next k (by omega)
    simp only [crossRound, crossRoundOn, element, Option.bind_eq_bind, Option.bind_some] at round
    obtain ⟨tmp', added, returned⟩ := Option.bind_eq_some_iff.mp round
    have int : IsInt (sum (k + 1)) ∧ tmp' = sum (k + 1) := by
      simp only at same
      rw [same, ← next, checked] at added
      split at added
      · rename_i int
        exact ⟨int, (Option.some.inj added).symm⟩
      · cases added
    obtain rfl := Option.some.inj returned
    refine ⟨int.2, ?_⟩
    intro k' upTo
    rcases Nat.lt_or_eq_of_le (Nat.le_of_lt_succ upTo) with earlier | rfl
    · exact ints k' earlier
    · exact int.1

end Scans

/-! ## Across the middle -/

section Across

variable {arr : List Int} {beg mid stop : Nat}

/-- An element is a window. -/
theorem windowSum_element {i : Nat} (inside : i < arr.length) :
    windowSum arr i (i + 1) = arr[i] := by
  have next := prefixSum_succ inside
  rw [windowSum_eq (show i ≤ i + 1 by omega)]
  omega

/-- A window is cut in two. -/
theorem windowSum_add {i j : Nat} (low : i ≤ mid) (high : mid ≤ j) :
    windowSum arr i j = windowSum arr i mid + windowSum arr mid j := by
  rw [windowSum_eq (Nat.le_trans low high), windowSum_eq low, windowSum_eq high]
  omega

/-- The sums of the scan to the left. -/
theorem scans_left (bound : mid ≤ arr.length) :
    Scans arr (fun k => mid - 1 - k) (fun k => windowSum arr (mid - k) mid) mid := by
  refine ⟨?_, ?_⟩
  · rw [Nat.sub_zero, windowSum_eq (Nat.le_refl mid), Int.sub_self]
  · intro k below
    have inside : mid - 1 - k < arr.length := by omega
    have next := prefixSum_succ inside
    rw [show mid - 1 - k + 1 = mid - k by omega] at next
    refine ⟨arr[mid - 1 - k], List.getElem?_eq_getElem inside, ?_⟩
    rw [show mid - (k + 1) = mid - 1 - k by omega, windowSum_eq (by omega), windowSum_eq (by omega)]
    omega

/-- The sums of the scan to the right. -/
theorem scans_right (bound : stop ≤ arr.length) :
    Scans arr (fun k => mid + k) (fun k => windowSum arr mid (mid + k)) (stop - mid) := by
  refine ⟨?_, ?_⟩
  · rw [Nat.add_zero, windowSum_eq (Nat.le_refl mid), Int.sub_self]
  · intro k below
    have inside : mid + k < arr.length := by omega
    have next := prefixSum_succ inside
    refine ⟨arr[mid + k], List.getElem?_eq_getElem inside, ?_⟩
    rw [← Nat.add_assoc, windowSum_eq (by omega), windowSum_eq (by omega)]
    omega

/-- The loop to the right counts from the middle. -/
theorem foldlM_right (s : Int × Int × Nat) :
    (List.range' mid (stop - mid)).foldlM (crossRound arr) s =
      (List.range' 0 (stop - mid)).foldlM (fun state k => crossRound arr state (mid + k)) s := by
  rw [List.range'_eq_map_range, List.foldlM_map, ← List.range_eq_range']

/-- `maxcross` as two scans. -/
theorem maxcross_eq (positive : 0 < mid) (inside : mid < stop) (bound : stop ≤ arr.length) :
    maxcross arr beg mid stop = (do
      let left ← (List.range' 0 mid).foldlM (fun state k => crossRound arr state (mid - 1 - k))
        (0, windowSum arr (mid - 1) mid, mid - 1 - 0)
      let right ← (List.range' 0 (stop - mid)).foldlM
        (fun state k => crossRound arr state (mid + k)) (0, windowSum arr mid (mid + 1), mid + 0)
      let max ← checked (right.2.1 + left.2.1)
      return ⟨some left.2.2, some right.2.2, max⟩) := by
  have low : mid - 1 < arr.length := by omega
  have high : mid < arr.length := by omega
  have first : arr[mid - 1] = windowSum arr (mid - 1) mid := by
    rw [← windowSum_element low, Nat.sub_add_cancel positive]
  have second : arr[mid] = windowSum arr mid (mid + 1) := (windowSum_element high).symm
  simp only [maxcross_rounds, List.getElem?_eq_getElem low, List.getElem?_eq_getElem high, first,
    second, foldlM_right, Option.bind_eq_bind, Option.bind_some, Nat.sub_zero, Nat.add_zero]

/-- A window that `maxcross` returns: its left part is the shortest one with the greatest sum, and
its right part has the greatest sum. -/
structure Crosses (arr : List Int) (mid stop left right : Nat) : Prop where
  /-- It starts before the middle. -/
  before : left < mid
  /-- It ends behind the middle. -/
  behind : mid ≤ right
  /-- It ends before the end. -/
  inside : right < stop
  /-- No left part has a greater sum. -/
  greatestL : ∀ i < mid, windowSum arr i mid ≤ windowSum arr left mid
  /-- Shorter left parts have smaller sums. -/
  shortest : ∀ i, left < i → i < mid → windowSum arr i mid < windowSum arr left mid
  /-- No right part has a greater sum. -/
  greatestR : ∀ j, mid < j → j ≤ stop → windowSum arr mid j ≤ windowSum arr mid (right + 1)

/-- No window across the middle has a greater sum. -/
theorem Crosses.greatest {left right i j : Nat} (crosses : Crosses arr mid stop left right)
    (low : i < mid) (high : mid < j) (bound : j ≤ stop) :
    windowSum arr i j ≤ windowSum arr left (right + 1) := by
  have first := crosses.greatestL i low
  have second := crosses.greatestR j high bound
  have before := crosses.before
  have behind := crosses.behind
  rw [windowSum_add (Nat.le_of_lt low) (Nat.le_of_lt high),
    windowSum_add (Nat.le_of_lt before) (show mid ≤ right + 1 by omega)]
  omega

/-- The two scans of `maxcross`. -/
theorem scans_spec (beg : Nat) (positive : 0 < mid) (inside : mid < stop)
    (bound : stop ≤ arr.length) (intsL : ∀ i < mid, IsInt (windowSum arr i mid))
    (intsR : ∀ j, mid < j → j ≤ stop → IsInt (windowSum arr mid j)) :
    ∃ left right, Crosses arr mid stop left right ∧ maxcross arr beg mid stop =
      (checked (windowSum arr left (right + 1))).map fun max => ⟨some left, some right, max⟩ := by
  obtain ⟨b, belowL, ranL, greatestL, strict⟩ := scan_spec
    (scans_left (Nat.le_trans (Nat.le_of_lt inside) bound)) positive
    fun k below => intsL (mid - (k + 1)) (by omega)
  obtain ⟨c, belowR, ranR, greatestR, -⟩ := scan_spec (scans_right bound)
    (show 0 < stop - mid by omega) fun k below => intsR (mid + (k + 1)) (by omega) (by omega)
  have startL : mid - (b + 1) = mid - 1 - b := by omega
  rw [startL] at ranL greatestL strict
  refine ⟨mid - 1 - b, mid + c, ⟨by omega, by omega, by omega, ?_, ?_, ?_⟩, ?_⟩
  · intro i low
    have here := greatestL (mid - 1 - i) (by omega)
    rwa [show mid - (mid - 1 - i + 1) = i by omega] at here
  · intro i low high
    have here := strict (mid - 1 - i) (by omega)
    rwa [show mid - (mid - 1 - i + 1) = i by omega] at here
  · intro j low high
    have here := greatestR (j - mid - 1) (by omega)
    rwa [show mid + (j - mid - 1 + 1) = j by omega, ← Nat.add_assoc] at here
  · have sum : windowSum arr mid (mid + (c + 1)) + windowSum arr (mid - 1 - b) mid =
        windowSum arr (mid - 1 - b) (mid + c + 1) := by
      rw [windowSum_add (show mid - 1 - b ≤ mid by omega) (show mid ≤ mid + c + 1 by omega),
        Nat.add_assoc]
      omega
    rw [maxcross_eq positive inside bound, ranL]
    simp only [Option.bind_eq_bind, Option.bind_some, ranR, sum]
    cases checked (windowSum arr (mid - 1 - b) (mid + c + 1)) with
    | none => rfl
    | some max => rfl

/-- `maxcross` returns a window when its sums are of type `int`. -/
theorem maxcross_of_fits (beg : Nat) (positive : 0 < mid) (inside : mid < stop)
    (bound : stop ≤ arr.length) (fits : CrossFits arr mid stop) :
    ∃ left right, Crosses arr mid stop left right ∧ maxcross arr beg mid stop =
      some ⟨some left, some right, windowSum arr left (right + 1)⟩ := by
  obtain ⟨left, right, crosses, returned⟩ :=
    scans_spec beg positive inside bound fits.left fits.right
  have int : IsInt (windowSum arr left (right + 1)) :=
    fits.across left (right + 1) crosses.before (Nat.lt_succ_of_le crosses.behind) crosses.inside
      fun i j low high bound => crosses.greatest low high bound
  refine ⟨left, right, crosses, ?_⟩
  rw [returned, checked, if_pos int]
  rfl

/-- When `maxcross` returns, its sums are of type `int`. -/
theorem fits_of_maxcross {sub : Subarr} (positive : 0 < mid) (inside : mid < stop)
    (bound : stop ≤ arr.length) (returned : maxcross arr beg mid stop = some sub) :
    CrossFits arr mid stop := by
  have scanned := returned
  rw [maxcross_eq positive inside bound] at scanned
  obtain ⟨left, ranL, scanned⟩ := Option.bind_eq_some_iff.mp scanned
  obtain ⟨right, ranR, -⟩ := Option.bind_eq_some_iff.mp scanned
  have intsL : ∀ i < mid, IsInt (windowSum arr i mid) := by
    intro i low
    have here := ints_of_scan (scans_left (Nat.le_trans (Nat.le_of_lt inside) bound)) rfl ranL
      (mid - 1 - i) (by omega)
    rwa [show mid - (mid - 1 - i + 1) = i by omega] at here
  have intsR : ∀ j, mid < j → j ≤ stop → IsInt (windowSum arr mid j) := by
    intro j low high
    have here := ints_of_scan (scans_right bound) rfl ranR (j - mid - 1) (by omega)
    rwa [show mid + (j - mid - 1 + 1) = j by omega] at here
  obtain ⟨left, right, crosses, same⟩ :=
    scans_spec beg positive inside bound intsL intsR
  refine ⟨intsL, intsR, ?_⟩
  intro i j low high inStop greatest
  have equal : windowSum arr i j = windowSum arr left (right + 1) :=
    Int.le_antisymm (crosses.greatest low high inStop) (greatest left (right + 1) crosses.before
      (Nat.lt_succ_of_le crosses.behind) crosses.inside)
  rw [equal]
  by_contra overflow
  rw [returned, checked, if_neg overflow] at same
  cases same

end Across

/-! ## Ranges -/

section Ranges

variable {arr : List Int} {beg stop : Nat}

/-- `maxsubarr` returns a window in front of its end when its sums are of type `int`, and no window
of its range has a greater sum. -/
theorem maxsubarr_of_fits (low : beg < stop) (high : stop ≤ arr.length)
    (fits : DivideFits arr beg stop) :
    ∃ left right, maxsubarr arr beg stop =
        some ⟨some left, some right, windowSum arr left (right + 1)⟩ ∧ left ≤ right ∧ right < stop ∧
      ∀ i j, beg ≤ i → i < j → j ≤ stop → windowSum arr i j ≤ windowSum arr left (right + 1) := by
  induction beg, stop using maxsubarrOn.induct with
  | case1 beg stop more noOverflow mid inLeft inRight =>
    rw [DivideFits, if_pos more] at fits
    rw [maxsubarr_eq, if_pos more, if_pos noOverflow]
    obtain ⟨-, fitsL, fitsR, fitsM⟩ := fits
    obtain ⟨l₁, r₁, left, order₁, bound₁, all₁⟩ := inLeft (by omega) (by omega) fitsL
    obtain ⟨l₂, r₂, right, order₂, bound₂, all₂⟩ := inRight (by omega) high fitsR
    obtain ⟨l₃, r₃, crosses, middle⟩ := maxcross_of_fits beg (show 0 < mid by omega)
      (show mid < stop by omega) high fitsM
    simp only [mid] at left right middle
    simp only [left, right, middle, Option.bind_eq_bind, Option.bind_some]
    obtain ⟨chosen, moreL, moreR, moreM⟩ := maxSubarr_spec
      ⟨some l₁, some r₁, windowSum arr l₁ (r₁ + 1)⟩ ⟨some l₂, some r₂, windowSum arr l₂ (r₂ + 1)⟩
      ⟨some l₃, some r₃, windowSum arr l₃ (r₃ + 1)⟩
    generalize maxSubarr _ _ _ = best at chosen moreL moreR moreM ⊢
    simp only at moreL moreR moreM
    obtain ⟨l, r, rfl, order, bound⟩ : ∃ l r, best = ⟨some l, some r, windowSum arr l (r + 1)⟩ ∧
        l ≤ r ∧ r < stop := by
      rcases chosen with rfl | rfl | rfl
      · exact ⟨l₁, r₁, rfl, order₁, by omega⟩
      · exact ⟨l₂, r₂, rfl, order₂, bound₂⟩
      · have before := crosses.before
        have behind := crosses.behind
        exact ⟨l₃, r₃, rfl, by omega, crosses.inside⟩
    refine ⟨l, r, rfl, order, bound, ?_⟩
    intro i j lowI less highJ
    rcases Nat.lt_or_ge mid j with beyond | within
    · rcases Nat.lt_or_ge i mid with across | inside
      · exact Int.le_trans (crosses.greatest across beyond highJ) moreM
      · exact Int.le_trans (all₂ i j inside less highJ) moreR
    · exact Int.le_trans (all₁ i j lowI less within) moreL
  | case2 beg stop more overflow =>
    rw [DivideFits, if_pos more] at fits
    exact absurd fits.1 overflow
  | case3 beg stop single =>
    obtain rfl : stop = beg + 1 := by omega
    refine ⟨beg, beg, ?_, Nat.le_refl _, Nat.lt_succ_self _, ?_⟩
    · rw [maxsubarr_eq, if_neg single, List.getElem?_eq_getElem high, windowSum_element high]
      rfl
    · intro i j lowI less highJ
      obtain rfl : i = beg := by omega
      obtain rfl : j = i + 1 := by omega
      exact Int.le_refl _

/-- When `maxsubarr` returns, its sums are of type `int`. -/
theorem fits_of_maxsubarr (low : beg < stop) (high : stop ≤ arr.length) {sub : Subarr}
    (returned : maxsubarr arr beg stop = some sub) : DivideFits arr beg stop := by
  induction beg, stop using maxsubarrOn.induct generalizing sub with
  | case1 beg stop more noOverflow mid inLeft inRight =>
    rw [maxsubarr_eq, if_pos more, if_pos noOverflow] at returned
    obtain ⟨left, isLeft, returned⟩ := Option.bind_eq_some_iff.mp returned
    obtain ⟨right, isRight, returned⟩ := Option.bind_eq_some_iff.mp returned
    obtain ⟨middle, isMiddle, -⟩ := Option.bind_eq_some_iff.mp returned
    rw [DivideFits, if_pos more]
    exact ⟨noOverflow, inLeft (by omega) (by omega) isLeft, inRight (by omega) high isRight,
      fits_of_maxcross (show 0 < mid by omega) (show mid < stop by omega) high isMiddle⟩
  | case2 beg stop more overflow =>
    rw [maxsubarr_eq, if_pos more, if_neg overflow] at returned
    cases returned
  | case3 beg stop single =>
    rw [DivideFits, if_neg single]
    trivial

/-- The elements of a range. -/
def within (arr : List Int) (beg stop i : Nat) : Option Int :=
  if beg ≤ i ∧ i < stop then arr[i]? else none

/-- What `maxsubarr` is to do for a range: it reads only elements of the range, and returns a window
inside of it with the greatest sum. -/
def RangeContract (arr : List Int) (beg stop : Nat) : Prop :=
  ∃ left right max, maxsubarr arr beg stop = some ⟨some left, some right, max⟩ ∧
    maxsubarrOn (within arr beg stop) beg stop = some ⟨some left, some right, max⟩ ∧
    beg ≤ left ∧ left ≤ right ∧ right < stop ∧ windowSum arr left (right + 1) = max ∧
    ∀ i j, beg ≤ i → i < j → j ≤ stop → windowSum arr i j ≤ max

/-- What `maxcross` is to do: it returns a window of the range across the middle with the greatest
sum. -/
def CrossContract (arr : List Int) (beg mid stop : Nat) : Prop :=
  ∃ left right max, maxcross arr beg mid stop = some ⟨some left, some right, max⟩ ∧
    beg ≤ left ∧ left < mid ∧ mid ≤ right ∧ right < stop ∧ windowSum arr left (right + 1) = max ∧
    ∀ i j, beg ≤ i → i < mid → mid < j → j ≤ stop → windowSum arr i j ≤ max

/-- No window from before the range up to the middle has a greater sum than all those of the
range. -/
def LeftInside (arr : List Int) (beg mid : Nat) : Prop :=
  ∀ i < beg, ∃ i', beg ≤ i' ∧ i' < mid ∧ windowSum arr i mid ≤ windowSum arr i' mid

/-- `maxsubarr` keeps its contract on a single element, and on a range from the start of the array
on. -/
theorem rangeContract_iff (low : beg < stop) (high : stop ≤ arr.length) :
    RangeContract arr beg stop ↔ stop = beg + 1 ∨ (beg = 0 ∧ DivideFits arr 0 stop) := by
  constructor
  · rintro ⟨left, right, max, returned, read, -⟩
    by_cases single : stop = beg + 1
    · exact .inl single
    by_cases start : beg = 0
    · subst start
      exact .inr ⟨rfl, fits_of_maxsubarr low high returned⟩
    have unreadable : within arr beg stop 0 = none := if_neg (by omega)
    rw [maxsubarrOn_eq_none (by omega) unreadable] at read
    cases read
  · intro condition
    have fits : DivideFits arr beg stop := by
      rcases condition with rfl | ⟨rfl, fits⟩
      · rw [DivideFits, if_neg (by omega)]
        trivial
      · exact fits
    obtain ⟨left, right, returned, order, bound, all⟩ := maxsubarr_of_fits low high fits
    have read : maxsubarrOn (within arr beg stop) beg stop = maxsubarr arr beg stop := by
      rcases condition with rfl | ⟨rfl, -⟩
      · rw [maxsubarrOn, maxsubarr_eq, if_neg (by omega), if_neg (by omega), within,
          if_pos (by omega)]
      · exact maxsubarrOn_congr low fun i below => if_pos (by omega)
    have first : beg ≤ left := by
      rcases condition with rfl | ⟨rfl, -⟩
      · rw [maxsubarr_eq, if_neg (by omega)] at returned
        obtain ⟨x, -, same⟩ := Option.map_eq_some_iff.mp returned
        exact Nat.le_of_eq (Option.some.inj (congrArg Subarr.left same))
      · exact Nat.zero_le left
    exact ⟨left, right, _, returned, read.trans returned, first, order, bound, rfl, all⟩

/-- `maxcross` keeps its contract when no greater sum is reached before the range. -/
theorem crossContract_iff {mid : Nat} (low : beg < mid) (inside : mid < stop)
    (high : stop ≤ arr.length) :
    CrossContract arr beg mid stop ↔ CrossFits arr mid stop ∧ LeftInside arr beg mid := by
  constructor
  · rintro ⟨left, right, max, returned, first, before, -⟩
    have fits := fits_of_maxcross (by omega) inside high returned
    obtain ⟨left', right', crosses, returned'⟩ :=
      maxcross_of_fits beg (by omega) inside high fits
    rw [returned] at returned'
    have same : left = left' :=
      Option.some.inj (congrArg Subarr.left (Option.some.inj returned'))
    refine ⟨fits, ?_⟩
    intro i outside
    exact ⟨left, first, before, same ▸ crosses.greatestL i (by omega)⟩
  · rintro ⟨fits, inRange⟩
    obtain ⟨left, right, crosses, returned⟩ := maxcross_of_fits beg (by omega) inside high fits
    have first : beg ≤ left := by
      by_contra outside
      obtain ⟨i, from_, before, atLeast⟩ := inRange left (by omega)
      have less := crosses.shortest i (by omega) before
      omega
    exact ⟨left, right, _, returned, first, crosses.before, crosses.behind, crosses.inside, rfl,
      fun i j _ before behind bound => crosses.greatest before behind bound⟩

/-- The two functions on a range of an array: `maxsubarr` keeps its contract exactly when the range
is a single element, or starts with the array and no sum overflows, and `maxcross` exactly when no
sum overflows and no window from before the range has a greater sum up to the middle. -/
theorem sub_range_iff (arr : List Int) (beg stop : Nat) (low : beg < stop)
    (high : stop ≤ arr.length) :
    (RangeContract arr beg stop ↔ stop = beg + 1 ∨ (beg = 0 ∧ DivideFits arr 0 stop)) ∧
      ∀ mid, beg < mid → mid < stop →
        (CrossContract arr beg mid stop ↔ CrossFits arr mid stop ∧ LeftInside arr beg mid) :=
  ⟨rangeContract_iff low high, fun _ before behind => crossContract_iff before behind high⟩

/-- The last two of three elements, of which the first one is not positive. -/
theorem sub_range_negative : RangeContract [-3, 1, 2] 2 3 ∧ CrossContract [-3, 1, 2] 1 2 3 := by
  have fits : SumsFit [-3, 1, 2] := by
    unfold SumsFit
    decide
  have inRange : LeftInside [-3, 1, 2] 1 2 := by
    intro i outside
    obtain rfl : i = 0 := by omega
    exact ⟨1, by decide, by decide, by decide⟩
  have single := (sub_range_iff [-3, 1, 2] 2 3 (by decide) (by decide)).1
  have across := (sub_range_iff [-3, 1, 2] 1 3 (by decide) (by decide)).2 2 (by decide) (by decide)
  exact ⟨single.mpr (.inl rfl), across.mpr ⟨fits.crossFits (by decide) (by decide), inRange⟩⟩

/-- The last two of three elements, of which the first one is positive: the window of `maxcross`
starts with it, and `maxsubarr` returns that window. -/
theorem sub_range_positive : SumsFit [5, 1, 2] ∧
    maxcross [5, 1, 2] 1 2 3 = some ⟨some 0, some 2, 8⟩ ∧ ¬ CrossContract [5, 1, 2] 1 2 3 ∧
    ¬ RangeContract [5, 1, 2] 1 3 := by
  have returned : maxcross [5, 1, 2] 1 2 3 = some ⟨some 0, some 2, 8⟩ := rfl
  refine ⟨?_, returned, ?_, ?_⟩
  · unfold SumsFit
    decide
  · rintro ⟨left, right, max, returned', first, -⟩
    rw [returned] at returned'
    cases returned'
    cases first
  · rw [rangeContract_iff (by decide) (by decide)]
    rintro (single | ⟨start, -⟩)
    · cases single
    · cases start

end Ranges

end CodeLearning.MaxSubarray
