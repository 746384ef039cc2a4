import CodeLearning.Clrs.ExchangeSorts
import CodeLearning.Sort.MedianPartition

/-!
# The quicksort with the median of three

`qsort` of `quicksort.c` parts a range of at least four elements and leaves others to
`insertion_sort` of `insertion_sort.c`. The sum of the ends of a range and the one that the length
is tested with are of type `int`: an array of more than `2 ^ 30` elements may have a range whose
ends are too great for them. `Calls` are the calls that a call leads to.
-/

namespace CodeLearning.Sorting.Sort

open Rearrangement CInt

/-- `insertion_sort`, which has the loops of `insertsort`. -/
def insertionSort (a : List Int32) : Option (List Int32) := insertPass 1 a

/-- `insertionsort`, for `n` elements from `left` on. -/
def insertionsort (a : List Int32) (left n : Nat) : Option (List Int32) := do
  let part ← insertionSort ((a.drop left).take n)
  return a.take left ++ part ++ a.drop (left + n)

/-- `cutoff`. -/
def cutoff : Nat := 3

/-- `qsort`; `right` is less than zero for an empty array. -/
def qsort (a : List Int32) (left : Nat) (right : Int) : Except Fault (List Int32) :=
  if left + cutoff ≤ intMax then
    if ((left + cutoff : Nat) : Int) ≤ right then
      match ran : partition a left right.toNat with
      | .error fault => .error fault
      | .ok (a, i) => do
        let a ← qsort a left (i - 1)
        qsort a (i + 1) right
    else orFault .outside (insertionsort a left (right - left + 1).toNat)
  else .error .overflow
termination_by (right + 1 - left).toNat
decreasing_by
  all_goals
    have limit : cutoff = 3 := rfl
    have index := partition_index (by omega) ran
    omega

/-- `quicksort`. -/
def quicksort (a : List Int32) : Except Fault (List Int32) := qsort a 0 ((a.length : Int) - 1)

/-! ## The calls -/

/-- The arguments of a call, with the array as it is then. -/
structure Call where
  /-- `a`. -/
  a : List Int32
  /-- `left`. -/
  left : Nat
  /-- `right`. -/
  right : Int

/-- The sums that a call computes are of type `int`: that of `left` and `cutoff`, and that of `left`
and `right` when the range has at least four elements. -/
def Call.Fits (c : Call) : Prop :=
  c.left + cutoff ≤ intMax ∧ (((c.left + cutoff : Nat) : Int) ≤ c.right → c.left + c.right ≤ intMax)

/-- The calls of `qsort` that one call leads to, itself among them. -/
inductive Calls : Call → Call → Prop
  /-- The call. -/
  | self (c : Call) : Calls c c
  /-- Those for the part before the pivot. -/
  | before {s c : Call} {a : List Int32} {i : Nat}
      (ran : partition s.a s.left s.right.toNat = .ok (a, i))
      (long : ((s.left + cutoff : Nat) : Int) ≤ s.right) (rest : Calls ⟨a, s.left, i - 1⟩ c) :
      Calls s c
  /-- Those for the part behind it. -/
  | behind {s c : Call} {a a' : List Int32} {i : Nat}
      (ran : partition s.a s.left s.right.toNat = .ok (a, i))
      (long : ((s.left + cutoff : Nat) : Int) ≤ s.right) (sorted : qsort a s.left (i - 1) = .ok a')
      (rest : Calls ⟨a', i + 1, s.right⟩ c) : Calls s c

/-- How a call ends: with its range in order, after calls whose sums all fitted, or with an
overflow in one of the calls. -/
inductive Outcome (s : Call) : Except Fault (List Int32) → Prop
  /-- The range is sorted. -/
  | sorted {a' : List Int32} (arranges : Arranges s.left (s.right + 1).toNat s.a a')
      (increasing : Increasing (elements a') s.left (s.right + 1).toNat)
      (fits : ∀ c, Calls s c → c.Fits) : Outcome s (.ok a')
  /-- A sum does not fit. -/
  | overflow {c : Call} (calls : Calls s c) (exceeds : ¬ c.Fits) : Outcome s (.error .overflow)

/-- A fault of a call is one of the calls that led to it. -/
theorem Outcome.failed {s t : Call} {fault : Fault} (outcome : Outcome t (.error fault))
    (leads : ∀ c, Calls t c → Calls s c) : Outcome s (.error fault) := by
  cases outcome with
  | overflow calls exceeds => exact .overflow (leads _ calls) exceeds

section Runs

variable {a a' : List Int32} {left n k : Nat} {right : Int}

/-- `qsort`, without the proof that it ends. -/
theorem qsort_eq (a : List Int32) (left : Nat) (right : Int) :
    qsort a left right = if left + cutoff ≤ intMax then
      if ((left + cutoff : Nat) : Int) ≤ right then
        partition a left right.toNat >>= fun parted =>
          qsort parted.1 left (parted.2 - 1) >>= fun a => qsort a (parted.2 + 1) right
      else orFault .outside (insertionsort a left (right - left + 1).toNat)
      else .error .overflow := by
  rw [qsort]
  split
  · split
    · split
      · rename_i fault failed
        rw [failed]
        rfl
      · rename_i a' i ran
        rw [ran]
        rfl
    · rfl
  · rfl

/-- `insertionsort` sorts a range. -/
theorem insertionsort_spec (high : left + n ≤ a.length) : ∃ a', insertionsort a left n = some a' ∧
    Arranges left (left + n) a a' ∧ Increasing (elements a') left (left + n) := by
  obtain ⟨part, eq⟩ : ∃ part, (a.drop left).take n = part := ⟨_, rfl⟩
  have front : (a.take left).length = left := List.length_take_of_le (by omega)
  have length : part.length = n := by
    rw [← eq, List.length_take, List.length_drop]
    omega
  have whole : a.take left ++ part ++ a.drop (left + n) = a := by
    rw [← eq, List.append_assoc, ← List.drop_drop, List.take_append_drop, List.take_append_drop]
  obtain ⟨part', ran, arranges, sorted⟩ := insertPass_spec (Nat.le_refl 1) part
  have length' : part'.length = n := arranges.length.trans length
  have moved := arranges.middle (a.take left) (a.drop (left + n))
  have increasing : Increasing (elements part') 0 part'.length := by
    rw [length', ← length]
    exact increasing_of_gapSorted sorted
  have ordered := increasing.middle (a.take left) (a.drop (left + n))
  rw [whole, front, length] at moved
  rw [front, length'] at ordered
  refine ⟨_, ?_, moved, ordered⟩
  rw [insertionsort, eq, insertionSort, ran]
  rfl

/-- A call for less than four elements leads to no other one. -/
theorem calls_short {s c : Call} (calls : Calls s c)
    (short : ¬ ((s.left + cutoff : Nat) : Int) ≤ s.right) : c = s := by
  cases calls with
  | self => rfl
  | before _ long => exact absurd long short
  | behind _ long => exact absurd long short

/-- A call for less than four elements, which may be none. -/
theorem qsort_short (short : ¬ ((left + cutoff : Nat) : Int) ≤ right)
    (le : (left : Int) ≤ right + 1) (high : right < a.length) :
    Outcome ⟨a, left, right⟩ (qsort a left right) := by
  rw [qsort_eq]
  by_cases fits : left + cutoff ≤ intMax
  · obtain ⟨a', ran, arranges, increasing⟩ :=
      insertionsort_spec (show left + (right - left + 1).toNat ≤ a.length by omega)
    have stop : left + (right - left + 1).toNat = (right + 1).toNat := by omega
    rw [stop] at arranges increasing
    rw [if_pos fits, if_neg short, ran]
    refine .sorted arranges increasing fun c calls => ?_
    rw [calls_short calls short]
    exact ⟨fits, fun long => absurd long short⟩
  · rw [if_neg fits]
    exact .overflow (.self _) fun absurdly => fits absurdly.1

/-- The parts are sorted one after the other. -/
theorem Outcome.join {a1 a2 a3 : List Int32} (ran : partition a left right.toNat = .ok (a1, k))
    (fits : Call.Fits ⟨a, left, right⟩) (arranges : Arranges left (right + 1).toNat a a1)
    (parted : Parted (elements a1) left (right + 1).toNat k) (between : left < k ∧ k < right)
    (first : qsort a1 left (k - 1) = .ok a2) (outcome1 : Outcome ⟨a1, left, k - 1⟩ (.ok a2))
    (outcome2 : Outcome ⟨a2, k + 1, right⟩ (.ok a3)) : Outcome ⟨a, left, right⟩ (.ok a3) := by
  cases outcome1 with
  | sorted arranges1 sorted1 fits1 =>
    cases outcome2 with
    | sorted arranges2 sorted2 fits2 =>
      have stop : ((k : Int) - 1 + 1).toNat = k := by omega
      dsimp only at arranges1 sorted1
      rw [stop] at arranges1 sorted1
      have joined := arranges.join parted (by omega) arranges1 sorted1 arranges2 sorted2
      refine .sorted joined.1 joined.2 fun c calls => ?_
      cases calls with
      | self => exact fits
      | before ran1 _ rest =>
        obtain ⟨rfl, rfl⟩ := Prod.mk.inj (Except.ok.inj (ran.symm.trans ran1))
        exact fits1 c rest
      | behind ran1 _ ran2 rest =>
        obtain ⟨rfl, rfl⟩ := Prod.mk.inj (Except.ok.inj (ran.symm.trans ran1))
        obtain rfl := Except.ok.inj (first.symm.trans ran2)
        exact fits2 c rest

/-- How `qsort` ends. -/
theorem qsort_outcome (le : (left : Int) ≤ right + 1) (high : right < a.length) :
    Outcome ⟨a, left, right⟩ (qsort a left right) := by
  induction size : (right + 1 - left).toNat using Nat.strongRecOn generalizing a left right with
  | ind size smaller =>
    by_cases long : ((left + cutoff : Nat) : Int) ≤ right
    · have three : cutoff = 3 := rfl
      by_cases fits : Call.Fits ⟨a, left, right⟩
      · have sum : (left : Int) + right ≤ intMax := fits.2 long
        obtain ⟨a1, k, ran, arranges, parted, between⟩ :=
          partition_spec (show left + 3 ≤ right.toNat by omega)
            (show right.toNat < a.length by omega) (by omega)
        have length := arranges.length
        have stop : right.toNat + 1 = (right + 1).toNat := by omega
        rw [stop] at arranges parted
        have outcome1 : Outcome ⟨a1, left, k - 1⟩ (qsort a1 left (k - 1)) :=
          smaller (((k : Int) - 1) + 1 - left).toNat (by omega) (by omega) (by omega) rfl
        rw [qsort_eq, if_pos fits.1, if_pos long, ran, except_ok_bind]
        dsimp only
        cases first : qsort a1 left (k - 1) with
        | error fault =>
          rw [first] at outcome1
          exact outcome1.failed fun c calls => .before ran long calls
        | ok a2 =>
          rw [first] at outcome1
          have length1 : a2.length = a1.length := by
            cases outcome1 with
            | sorted arranges1 _ _ => exact arranges1.length
          have outcome2 : Outcome ⟨a2, k + 1, right⟩ (qsort a2 (k + 1) right) :=
            smaller (right + 1 - ((k + 1 : Nat) : Int)).toNat (by omega) (by omega) (by omega) rfl
          rw [except_ok_bind]
          cases second : qsort a2 (k + 1) right with
          | error fault =>
            rw [second] at outcome2
            exact outcome2.failed fun c calls => .behind ran long first calls
          | ok a3 =>
            rw [second] at outcome2
            exact outcome1.join ran fits arranges parted (by omega) first outcome2
      · have exceeds : qsort a left right = .error .overflow := by
          rw [qsort_eq]
          by_cases small : left + cutoff ≤ intMax
          · have sum : intMax < left + right.toNat := by
              by_contra le
              exact fits ⟨small, fun _ => by dsimp only; omega⟩
            rw [if_pos small, if_pos long, partition_overflow sum]
            rfl
          · rw [if_neg small]
        rw [exceeds]
        exact .overflow (.self _) fits
    · exact qsort_short long le high

end Runs

/-- The result is the array sorted. -/
def SortsArray (result : Except Fault (List Int32)) (a : List Int32) : Prop :=
  ∃ sorted, result = .ok sorted ∧ sorted.Pairwise (· ≤ ·) ∧ sorted.Perm a

section WholeArray

variable {a : List Int32}

/-- How `quicksort` ends. -/
theorem quicksort_outcome (a : List Int32) :
    Outcome ⟨a, 0, (a.length : Int) - 1⟩ (quicksort a) := qsort_outcome (by omega) (by omega)

/-- A run that has sorted the array has computed sums that fit. -/
theorem fits_of_sortsArray (sorts : SortsArray (quicksort a) a) {c : Call}
    (calls : Calls ⟨a, 0, (a.length : Int) - 1⟩ c) : c.Fits := by
  obtain ⟨sorted, ran, _⟩ := sorts
  have outcome := quicksort_outcome a
  rw [ran] at outcome
  cases outcome with
  | sorted _ _ fits => exact fits c calls

/-- A run whose sums fit sorts the array. -/
theorem sortsArray_of_fits (fits : ∀ c, Calls ⟨a, 0, (a.length : Int) - 1⟩ c → c.Fits) :
    SortsArray (quicksort a) a := by
  have outcome := quicksort_outcome a
  cases ran : quicksort a with
  | error fault =>
    rw [ran] at outcome
    cases outcome with
    | overflow calls exceeds => exact absurd (fits _ calls) exceeds
  | ok sorted =>
    rw [ran] at outcome
    cases outcome with
    | sorted arranges increasing _ =>
      have stop : ((a.length : Int) - 1 + 1).toNat = a.length := by omega
      dsimp only at arranges increasing
      rw [stop] at arranges increasing
      rw [← arranges.length] at increasing
      exact ⟨sorted, rfl, pairwise_of_increasing increasing, arranges.perm (Nat.le_refl _)⟩

/-- For every array: no scan of `quicksort` reads outside of the range of its call, and `quicksort`
sorts the array if and only if all sums that the calls of `qsort` compute are of type `int`. -/
theorem quicksort_iff (a : List Int32) : quicksort a ≠ .error .beyond ∧
    (SortsArray (quicksort a) a ↔ ∀ c, Calls ⟨a, 0, (a.length : Int) - 1⟩ c → c.Fits) := by
  constructor
  · intro beyond
    have outcome := quicksort_outcome a
    rw [beyond] at outcome
    cases outcome
  · constructor
    · intro sorts c calls
      exact fits_of_sortsArray sorts calls
    · exact sortsArray_of_fits

/-- The ranges of the calls are parts of the first one. -/
theorem calls_within {s c : Call} (calls : Calls s c) (le : (s.left : Int) ≤ s.right + 1) :
    (c.left : Int) ≤ c.right + 1 ∧ c.right ≤ s.right := by
  induction calls with
  | self s => exact ⟨le, Int.le_refl _⟩
  | @before s c a1 i ran long rest within =>
    have index := partition_index (by omega) ran
    have part := within (by dsimp only; omega)
    dsimp only at part
    omega
  | @behind s c a1 a2 i ran long first rest within =>
    have index := partition_index (by omega) ran
    have part := within (by dsimp only; omega)
    dsimp only at part
    omega

/-- An array of at most `2 ^ 30 + 2` elements is sorted. -/
theorem quicksort_sorts (few : a.length ≤ 2 ^ 30 + 2) : SortsArray (quicksort a) a := by
  refine sortsArray_of_fits fun c calls => ?_
  have within := calls_within calls (by dsimp only; omega)
  have limit : intMax = 2 ^ 31 - 1 := rfl
  have three : cutoff = 3 := rfl
  dsimp only at within
  exact ⟨by omega, fun long => by omega⟩

/-- The sum of the ends of the second half overflows in a long array of equal elements. -/
theorem not_sortsArray_replicate {n : Nat} (x : Int32) (many : 3 * 2 ^ 29 ≤ n) :
    ¬ SortsArray (quicksort (List.replicate n x)) (List.replicate n x) := by
  intro sorts
  have limit : intMax = 2 ^ 31 - 1 := rfl
  have three : cutoff = 3 := rfl
  have length : (List.replicate n x).length = n := List.length_replicate
  have whole := fits_of_sortsArray sorts (.self _)
  have long : ((0 + cutoff : Nat) : Int) ≤ ((List.replicate n x).length : Int) - 1 := by omega
  have sum := whole.2 long
  dsimp only at sum
  obtain ⟨a1, k, ran, low, high⟩ := partition_replicate (n := n) x
    (show 0 + 3 ≤ (((List.replicate n x).length : Int) - 1).toNat by omega) (by omega) (by omega)
  obtain ⟨sorted, all, _⟩ := id sorts
  rw [quicksort, qsort_eq, if_pos whole.1, if_pos long, ran, except_ok_bind] at all
  obtain ⟨a2, first, _⟩ := bind_ok all
  have second := fits_of_sortsArray sorts (.behind ran long first (.self _))
  have sum' := second.2 (by dsimp only; omega)
  dsimp only at sum'
  omega

/-- That many equal elements. -/
theorem qsort_overflows : 3 * 2 ^ 29 ≤ intMax ∧
    ¬ SortsArray (quicksort (List.replicate (3 * 2 ^ 29) 7)) (List.replicate (3 * 2 ^ 29) 7) :=
  ⟨by decide, not_sortsArray_replicate 7 (Nat.le_refl _)⟩

end WholeArray

end CodeLearning.Sorting.Sort
