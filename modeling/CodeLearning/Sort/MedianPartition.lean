import CodeLearning.Clrs.Partition
import CodeLearning.Lib.CInt

/-!
# The scans around the median of three

`qsort` of `quicksort.c` takes the median of the first, the middle and the last element of a range
as the pivot and puts it before the last one. Its two scans have no test for the ends of the range:
the one upwards is stopped by an element that is not less than the pivot, the one downwards by an
element that is not greater, and both stop at an equal one. The index of the middle element is
computed as an `int`.
-/

namespace CodeLearning.Sorting.Sort

open Rearrangement CInt

/-- What stops a run. -/
inductive Fault where
  /-- An access outside of the array. -/
  | outside
  /-- A sum that is not an `int`. -/
  | overflow
  /-- A scan that reads an element outside of its range. -/
  | beyond
  deriving DecidableEq, Repr

/-- The exchange of two elements when the first one is greater. -/
def exchangeGreater (a : List Int32) (p q : Nat) : Option (List Int32) := do
  let x ← a[p]?
  let y ← a[q]?
  if x > y then tmpSwap a p q else some a

/-- `median3`: the array and the pivot. -/
def median3 (a : List Int32) (left right : Nat) : Except Fault (List Int32 × Int32) :=
  if left + right ≤ intMax then
    let center := (left + right) / 2
    orFault .outside do
      let a ← exchangeGreater a left center
      let a ← exchangeGreater a left right
      let a ← exchangeGreater a center right
      let a ← tmpSwap a center (right - 1)
      let pivot ← a[right - 1]?
      return (a, pivot)
  else .error .overflow

/-- Which one of the scans is at work. -/
inductive Scan where
  /-- The one with `i`. -/
  | up
  /-- The one with `j`. -/
  | down
  deriving DecidableEq, Repr

/-- The loop of `qsort`: the array and `i` when it is left by `break`. -/
def partitionLoop (pivot : Int32) (left right : Nat) :
    Scan → List Int32 → Nat → Nat → Except Fault (List Int32 × Nat)
  | .up, a, i, j =>
    if left ≤ i + 1 ∧ i + 1 ≤ right then do
      let x ← orFault .outside a[i + 1]?
      if x < pivot then partitionLoop pivot left right .up a (i + 1) j
      else partitionLoop pivot left right .down a (i + 1) j
    else .error .beyond
  | .down, a, i, j =>
    if left + 1 ≤ j ∧ j ≤ right + 1 then do
      let x ← orFault .outside a[j - 1]?
      if x > pivot then partitionLoop pivot left right .down a i (j - 1)
      else if i < j - 1 then do
        let a ← orFault .outside (tmpSwap a i (j - 1))
        partitionLoop pivot left right .up a i (j - 1)
      else .ok (a, i)
    else .error .beyond
termination_by _ _ i j => (right - i) + j

/-- `qsort` of a range of at least four elements up to the recursive calls: the array and `i`. -/
def partition (a : List Int32) (left right : Nat) : Except Fault (List Int32 × Nat) := do
  let (a, pivot) ← median3 a left right
  let (a, i) ← partitionLoop pivot left right .up a left (right - 1)
  let a ← orFault .outside (tmpSwap a i (right - 1))
  return (a, i)

/-- The index of the loop moves up, and stays in the range. -/
theorem partitionLoop_index {pivot : Int32} {left right i j k : Nat} {scan : Scan}
    {a a' : List Int32} (ran : partitionLoop pivot left right scan a i j = .ok (a', k))
    (inside : i ≤ right) : i ≤ k ∧ k ≤ right := by
  induction size : (right - i) + j using Nat.strongRecOn generalizing scan a i j with
  | ind size smaller =>
    cases scan with
    | up =>
      rw [partitionLoop] at ran
      by_cases bounds : left ≤ i + 1 ∧ i + 1 ≤ right
      · rw [if_pos bounds] at ran
        obtain ⟨x, _, rest⟩ := bind_ok ran
        have moves : i + 1 ≤ k ∧ k ≤ right := by
          by_cases less : x < pivot
          · rw [if_pos less] at rest
            exact smaller _ (by omega) rest bounds.2 rfl
          · rw [if_neg less] at rest
            exact smaller _ (by omega) rest bounds.2 rfl
        exact ⟨by omega, moves.2⟩
      · rw [if_neg bounds] at ran
        cases ran
    | down =>
      rw [partitionLoop] at ran
      by_cases bounds : left + 1 ≤ j ∧ j ≤ right + 1
      · rw [if_pos bounds] at ran
        obtain ⟨x, _, rest⟩ := bind_ok ran
        by_cases greater : x > pivot
        · rw [if_pos greater] at rest
          exact smaller _ (by omega) rest inside rfl
        · rw [if_neg greater] at rest
          by_cases more : i < j - 1
          · rw [if_pos more] at rest
            obtain ⟨moved, _, rest⟩ := bind_ok rest
            exact smaller _ (by omega) rest inside rfl
          · rw [if_neg more] at rest
            obtain ⟨_, rfl⟩ := Prod.mk.inj (Except.ok.inj rest)
            exact ⟨Nat.le_refl i, inside⟩
      · rw [if_neg bounds] at ran
        cases ran

/-- The index is in the range. -/
theorem partition_index {a a' : List Int32} {left right i : Nat} (le : left ≤ right)
    (ran : partition a left right = .ok (a', i)) : left ≤ i ∧ i ≤ right := by
  obtain ⟨⟨a1, pivot⟩, _, rest⟩ := bind_ok ran
  obtain ⟨⟨a2, k⟩, loop, rest⟩ := bind_ok rest
  obtain ⟨a3, _, rest⟩ := bind_ok rest
  obtain ⟨_, rfl⟩ := Prod.mk.inj (Except.ok.inj rest)
  exact partitionLoop_index loop le

/-! ## The pivot -/

section Pivot

variable {a : List Int32} {p q left right : Nat}

/-- The exchange puts two elements into order. -/
theorem exchangeGreater_spec (insideP : left ≤ p ∧ p < right) (insideQ : left ≤ q ∧ q < right)
    (apart : p ≠ q) (high : right ≤ a.length) : ∃ a', exchangeGreater a p q = some a' ∧
      Arranges left right a a' ∧ elements a' p ≤ elements a' q ∧
      (elements a' p = elements a p ∧ elements a' q = elements a q ∨
        elements a' p = elements a q ∧ elements a' q = elements a p) ∧
      ∀ k, k ≠ p → k ≠ q → elements a' k = elements a k := by
  have boundP : p < a.length := by omega
  have boundQ : q < a.length := by omega
  rw [exchangeGreater, getElem?_eq_elements boundP, getElem?_eq_elements boundQ]
  simp only [Option.bind_eq_bind, Option.bind_some]
  by_cases greater : elements a p > elements a q
  · have view := elements_exchanged boundP boundQ
    have atP : elements (exchanged a p q) p = elements a q := by
      rw [view, Function.update_of_ne apart, Function.update_self]
    have atQ : elements (exchanged a p q) q = elements a p := by
      rw [view, Function.update_self]
    rw [if_pos greater, tmpSwap_eq boundP boundQ]
    refine ⟨_, rfl, arranges_exchanged insideP insideQ high, ?_, Or.inr ⟨atP, atQ⟩, ?_⟩
    · rw [atP, atQ]
      exact le_of_lt greater
    · intro k notP notQ
      rw [view, Function.update_of_ne notQ, Function.update_of_ne notP]
  · rw [if_neg greater]
    exact ⟨a, rfl, .refl _ _ a, not_lt.mp greater, Or.inl ⟨rfl, rfl⟩, fun _ _ _ => rfl⟩

/-- The pivot stands before the last element, and stops both scans. -/
theorem median3_spec (long : left + 3 ≤ right) (high : right < a.length)
    (fits : left + right ≤ intMax) : ∃ a' pivot, median3 a left right = .ok (a', pivot) ∧
      Arranges left (right + 1) a a' ∧ elements a' (right - 1) = pivot ∧
      elements a' left ≤ pivot ∧ pivot ≤ elements a' right := by
  obtain ⟨center, half⟩ : ∃ center, (left + right) / 2 = center := ⟨_, rfl⟩
  have inL : left ≤ left ∧ left < right + 1 := by omega
  have inC : left ≤ center ∧ center < right + 1 := by omega
  have inR : left ≤ right ∧ right < right + 1 := by omega
  have inP : left ≤ right - 1 ∧ right - 1 < right + 1 := by omega
  obtain ⟨a1, ran1, arranges1, order1, _, others1⟩ :=
    exchangeGreater_spec inL inC (by omega) (show right + 1 ≤ a.length by omega)
  obtain ⟨a2, ran2, arranges2, order2, cases2, others2⟩ :=
    exchangeGreater_spec inL inR (by omega) (show right + 1 ≤ a1.length by
      rw [arranges1.length]
      omega)
  obtain ⟨a3, ran3, arranges3, order3, cases3, others3⟩ :=
    exchangeGreater_spec inC inR (by omega) (show right + 1 ≤ a2.length by
      rw [arranges2.length, arranges1.length]
      omega)
  have length3 : a3.length = a.length :=
    arranges3.length.trans (arranges2.length.trans arranges1.length)
  -- After the second exchange the first one of the three is a least one.
  have least : elements a2 left ≤ elements a2 center := by
    rw [others2 center (by omega) (by omega)]
    rcases cases2 with ⟨same, _⟩ | ⟨_, same⟩
    · rw [same]
      exact order1
    · rw [same] at order2
      exact le_trans order2 order1
  have median : elements a3 left ≤ elements a3 center := by
    rw [others3 left (by omega) (by omega)]
    rcases cases3 with ⟨same, _⟩ | ⟨same, _⟩
    · rw [same]
      exact least
    · rw [same]
      exact order2
  have boundC : center < a3.length := by omega
  have boundP : right - 1 < a3.length := by omega
  have view := elements_exchanged boundC boundP
  have atP : elements (exchanged a3 center (right - 1)) (right - 1) = elements a3 center := by
    rw [view, Function.update_self]
  have other : ∀ k, k ≠ center → k ≠ right - 1 →
      elements (exchanged a3 center (right - 1)) k = elements a3 k := by
    intro k notC notP
    rw [view, Function.update_of_ne notP, Function.update_of_ne notC]
  have moved : Arranges left (right + 1) a3 (exchanged a3 center (right - 1)) :=
    arranges_exchanged inC inP (by omega)
  have bound : right - 1 < (exchanged a3 center (right - 1)).length := by
    rw [moved.length]
    exact boundP
  refine ⟨exchanged a3 center (right - 1), elements a3 center, ?_,
    ((arranges1.trans arranges2).trans arranges3).trans moved, atP, ?_, ?_⟩
  · rw [median3, if_pos fits, half]
    simp only [Option.bind_eq_bind, ran1, ran2, ran3, Option.bind_some, tmpSwap_eq boundC boundP,
      getElem?_eq_elements bound, atP]
    rfl
  · rw [other left (by omega) (by omega)]
    exact median
  · rw [other right (by omega) (by omega)]
    exact order3

/-- The index of the middle element is not an `int`. -/
theorem median3_overflow (exceeds : intMax < left + right) :
    median3 a left right = .error .overflow := if_neg (by omega)

end Pivot

/-! ## The scans -/

/-- The elements up to `i` and from `j` on are on their sides of the pivot; this one stands before
the last element. -/
structure Sides (now : Nat → Int32) (pivot : Int32) (left right i j : Nat) : Prop where
  /-- The elements before `i`. -/
  before : ∀ p, left ≤ p → p < i → now p ≤ pivot
  /-- The elements from `j` on. -/
  behind : ∀ p, j ≤ p → p ≤ right → pivot ≤ now p
  /-- The pivot. -/
  atPivot : now (right - 1) = pivot

/-- While the scan upwards is at work: an element that stops it is still before it. -/
structure Up (now : Nat → Int32) (pivot : Int32) (left right i j : Nat) : Prop
    extends Sides now pivot left right (i + 1) j where
  /-- The indices. -/
  inside : left ≤ i ∧ i < j ∧ j < right

/-- While the scan downwards is at work: an element that stops it is still before it, and the other
scan has been stopped at `i`. -/
structure Down (now : Nat → Int32) (pivot : Int32) (left right i j : Nat) : Prop
    extends Sides now pivot left right i j where
  /-- The indices. -/
  inside : left < i ∧ i ≤ j ∧ j < right
  /-- The element at `i`. -/
  stopped : pivot ≤ now i

section Scans

variable {now : Nat → Int32} {pivot : Int32} {left right i j : Nat}

/-- The scan upwards goes on. -/
theorem Up.skip (up : Up now pivot left right i j) (less : now (i + 1) < pivot) :
    Up now pivot left right (i + 1) j where
  before p low high := by
    by_cases here : p = i + 1
    · rw [here]
      exact le_of_lt less
    · exact up.before p low (by omega)
  behind := up.behind
  atPivot := up.atPivot
  inside := by
    have inside := up.inside
    have notLast : i + 1 ≠ j := by
      intro last
      have stops := up.behind j (Nat.le_refl j) (by omega)
      rw [← last] at stops
      exact absurd less (not_lt.mpr stops)
    omega

/-- The scan upwards is stopped. -/
theorem Up.stop (up : Up now pivot left right i j) (stops : ¬ now (i + 1) < pivot) :
    Down now pivot left right (i + 1) j where
  before := up.before
  behind := up.behind
  atPivot := up.atPivot
  inside := by
    have inside := up.inside
    omega
  stopped := not_lt.mp stops

/-- The scan downwards goes on. -/
theorem Down.skip (down : Down now pivot left right i j) (greater : now (j - 1) > pivot) :
    Down now pivot left right i (j - 1) where
  before := down.before
  behind p low high := by
    by_cases here : p = j - 1
    · rw [here]
      exact le_of_lt greater
    · exact down.behind p (by omega) high
  atPivot := down.atPivot
  inside := by
    have inside := down.inside
    have notLast : j - 1 ≠ i - 1 := by
      intro last
      have stops := down.before (i - 1) (by omega) (by omega)
      rw [← last] at stops
      exact absurd greater (not_lt.mpr stops)
    omega
  stopped := down.stopped

/-- The scan downwards is stopped, and the two elements are exchanged. -/
theorem Down.exchange (down : Down now pivot left right i j) (stops : ¬ now (j - 1) > pivot)
    (more : i < j - 1) : Up (Function.update (Function.update now i (now (j - 1))) (j - 1) (now i))
      pivot left right i (j - 1) where
  before p low high := by
    have inside := down.inside
    rw [Function.update_of_ne (by omega)]
    by_cases here : p = i
    · rw [here, Function.update_self]
      exact not_lt.mp stops
    · rw [Function.update_of_ne here]
      exact down.before p low (by omega)
  behind p low high := by
    by_cases here : p = j - 1
    · rw [here, Function.update_self]
      exact down.stopped
    · rw [Function.update_of_ne here, Function.update_of_ne (by omega)]
      exact down.behind p (by omega) high
  atPivot := by
    have inside := down.inside
    rw [Function.update_of_ne (by omega), Function.update_of_ne (by omega)]
    exact down.atPivot
  inside := by
    have inside := down.inside
    omega

/-- The scans have met, and the pivot is exchanged with the element that stopped the first one. -/
theorem Down.parted (down : Down now pivot left right i j) (met : ¬ i < j - 1) :
    Parted (Function.update (Function.update now i (now (right - 1))) (right - 1) (now i))
      left (right + 1) i := by
  have inside := down.inside
  have atI : Function.update (Function.update now i (now (right - 1))) (right - 1) (now i) i =
      pivot := by
    by_cases last : i = right - 1
    · rw [last, Function.update_self]
      exact down.atPivot
    · rw [Function.update_of_ne last, Function.update_self]
      exact down.atPivot
  constructor
  · intro p low high
    rw [atI, Function.update_of_ne (by omega), Function.update_of_ne (by omega)]
    exact down.before p low high
  · intro p low high
    rw [atI]
    by_cases last : p = right - 1
    · rw [last, Function.update_self]
      exact down.stopped
    · rw [Function.update_of_ne last, Function.update_of_ne (by omega)]
      exact down.behind p (by omega) (by omega)

end Scans

section Loop

variable {a : List Int32} {pivot : Int32} {left right i j : Nat}

/-- The state of the loop. -/
def Scanning (pivot : Int32) (left right : Nat) (scan : Scan) (now : Nat → Int32) (i j : Nat) :
    Prop :=
  match scan with
  | .up => Up now pivot left right i j
  | .down => Down now pivot left right i j

/-- The loop ends with the scans met; no scan leaves the range. -/
theorem partitionLoop_spec {scan : Scan}
    (scanning : Scanning pivot left right scan (elements a) i j) (high : right < a.length) :
    ∃ a' k j', partitionLoop pivot left right scan a i j = .ok (a', k) ∧
      Arranges left (right + 1) a a' ∧ Down (elements a') pivot left right k j' ∧
      ¬ k < j' - 1 := by
  induction size : (right - i) + j using Nat.strongRecOn generalizing scan a i j with
  | ind size smaller =>
    cases scan with
    | up =>
      have inv : Up (elements a) pivot left right i j := scanning
      have inside := inv.inside
      rw [partitionLoop, if_pos (by omega), getElem?_eq_elements (by omega), orFault,
        except_ok_bind]
      by_cases less : elements a (i + 1) < pivot
      · have next : Scanning pivot left right .up (elements a) (i + 1) j := inv.skip less
        rw [if_pos less]
        exact smaller _ (by omega) next high rfl
      · have next : Scanning pivot left right .down (elements a) (i + 1) j := inv.stop less
        rw [if_neg less]
        exact smaller _ (by omega) next high rfl
    | down =>
      have inv : Down (elements a) pivot left right i j := scanning
      have inside := inv.inside
      rw [partitionLoop, if_pos (by omega), getElem?_eq_elements (by omega), orFault,
        except_ok_bind]
      by_cases greater : elements a (j - 1) > pivot
      · have next : Scanning pivot left right .down (elements a) i (j - 1) := inv.skip greater
        rw [if_pos greater]
        exact smaller _ (by omega) next high rfl
      · rw [if_neg greater]
        by_cases more : i < j - 1
        · have moved : Arranges left (right + 1) a (exchanged a i (j - 1)) :=
            arranges_exchanged (by omega) (by omega) (by omega)
          have next :
              Scanning pivot left right .up (elements (exchanged a i (j - 1))) i (j - 1) := by
            rw [elements_exchanged (by omega) (by omega)]
            exact inv.exchange greater more
          obtain ⟨a', k, j', ran, arranges, down, met⟩ :=
            smaller _ (by omega) next (by rwa [moved.length]) rfl
          rw [if_pos more, tmpSwap_eq (by omega) (by omega)]
          exact ⟨a', k, j', ran, moved.trans arranges, down, met⟩
        · rw [if_neg more]
          exact ⟨a, i, j, rfl, .refl _ _ a, inv, more⟩

/-- A range of at least four elements is parted by the pivot, with elements on both sides. -/
theorem partition_spec (long : left + 3 ≤ right) (high : right < a.length)
    (fits : left + right ≤ intMax) : ∃ a' k, partition a left right = .ok (a', k) ∧
      Arranges left (right + 1) a a' ∧ Parted (elements a') left (right + 1) k ∧
      left < k ∧ k < right := by
  obtain ⟨a1, pivot, ran1, arranges1, last, low, top⟩ := median3_spec long high fits
  have start : Up (elements a1) pivot left right left (right - 1) := by
    refine ⟨⟨fun p lowP highP => ?_, fun p lowP highP => ?_, last⟩, by omega⟩
    · rw [show p = left by omega]
      exact low
    · by_cases atPivot : p = right - 1
      · rw [atPivot, last]
      · rw [show p = right by omega]
        exact top
  have scanning : Scanning pivot left right .up (elements a1) left (right - 1) := start
  obtain ⟨a2, k, j, ran2, arranges2, down, met⟩ :=
    partitionLoop_spec scanning (by rwa [arranges1.length])
  have inside := down.inside
  have length : a2.length = a.length := arranges2.length.trans arranges1.length
  have parted := down.parted met
  rw [← elements_exchanged (by omega) (by omega)] at parted
  have moved : Arranges left (right + 1) a2 (exchanged a2 k (right - 1)) :=
    arranges_exchanged (by omega) (by omega) (by omega)
  refine ⟨exchanged a2 k (right - 1), k, ?_, (arranges1.trans arranges2).trans moved, parted,
    inside.1, by omega⟩
  rw [partition, ran1, except_ok_bind]
  dsimp only
  rw [ran2, except_ok_bind]
  dsimp only
  rw [tmpSwap_eq (by omega) (by omega)]
  rfl

/-- The index of the middle element is not an `int`. -/
theorem partition_overflow (exceeds : intMax < left + right) :
    partition a left right = .error .overflow := by
  rw [partition, median3_overflow exceeds]
  rfl

end Loop

/-! ## Equal elements -/

section Equal

/-- Two equal elements are exchanged. -/
theorem exchanged_replicate {n p q : Nat} (x : Int32) (insideP : p < n) (insideQ : q < n) :
    exchanged (List.replicate n x) p q = List.replicate n x := by
  have element : ∀ i < n, elements (List.replicate n x) i = x := by
    intro i inside
    rw [elements, List.getD_eq_getElem?_getD, List.getElem?_replicate, if_pos inside]
    rfl
  rw [exchanged, element p insideP, element q insideQ, List.set_replicate_self,
    List.set_replicate_self]

/-- Both scans stop at every element, so that they meet in the middle. -/
theorem partitionLoop_replicate {n left right i j : Nat} (x : Int32) (low : left ≤ i) (less : i < j)
    (below : j < right) (high : right < n) : ∃ k,
      partitionLoop x left right .up (List.replicate n x) i j = .ok (List.replicate n x, k) ∧
        i + j ≤ 2 * k ∧ 2 * k ≤ i + j + 1 := by
  induction size : j - i using Nat.strongRecOn generalizing i j with
  | ind size smaller =>
    have element : ∀ p < n, (List.replicate n x)[p]? = some x := fun p inside => by
      rw [List.getElem?_replicate, if_pos inside]
    have notLess : ¬ x < x := lt_irrefl x
    rw [partitionLoop, if_pos (by omega), element (i + 1) (by omega), orFault, except_ok_bind,
      if_neg notLess, partitionLoop, if_pos (by omega), element (j - 1) (by omega), orFault,
      except_ok_bind, if_neg notLess]
    by_cases more : i + 1 < j - 1
    · rw [if_pos more, tmpSwap_eq (by rw [List.length_replicate]; omega)
        (by rw [List.length_replicate]; omega), exchanged_replicate x (by omega) (by omega)]
      obtain ⟨k, ran, bounds⟩ := smaller (j - 1 - (i + 1)) (by omega) (by omega) more (by omega) rfl
      exact ⟨k, ran, by omega⟩
    · rw [if_neg more]
      exact ⟨i + 1, rfl, by omega⟩

/-- A range of equal elements is parted in the middle. -/
theorem partition_replicate {n left right : Nat} (x : Int32) (long : left + 3 ≤ right)
    (high : right < n) (fits : left + right ≤ intMax) : ∃ a' k,
      partition (List.replicate n x) left right = .ok (a', k) ∧ left + right ≤ 2 * k + 1 ∧
        2 * k ≤ left + right := by
  have length : (List.replicate n x).length = n := List.length_replicate
  obtain ⟨a1, pivot, ran1, arranges, last, _⟩ :=
    median3_spec long (show right < (List.replicate n x).length by omega) fits
  have same : a1 = List.replicate n x :=
    List.perm_replicate.mp (arranges.perm (by omega))
  have equal : pivot = x := by
    rw [← last, same, elements, List.getD_eq_getElem?_getD,
      List.getElem?_replicate_of_lt (by omega), Option.getD_some]
  obtain ⟨k, ran2, bounds⟩ :=
    partitionLoop_replicate x (Nat.le_refl left) (show left < right - 1 by omega) (by omega) high
  refine ⟨List.replicate n x, k, ?_, by omega⟩
  rw [partition, ran1, except_ok_bind]
  dsimp only
  rw [same, equal, ran2, except_ok_bind]
  dsimp only
  rw [tmpSwap_eq (by omega) (by omega), exchanged_replicate x (by omega) (by omega)]
  rfl

end Equal

end CodeLearning.Sorting.Sort
