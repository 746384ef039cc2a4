import CodeLearning.Clrs.ExchangeSorts
import CodeLearning.Lib.CInt
import CodeLearning.Lib.SiftDown

/-!
# The two heapsorts

`heapsort` of `sorting.c` counts the elements from one. Its `sink` exchanges an element with its
greater child where this is greater, and goes on from there to the end of the heap in any case.
`heapsort` of `heapsort.c` counts from zero. Its `percdown` holds the element in `tmp`, moves
greater children up and stops at the first place where there is none. Both compute the index of the
next child as an `int`, `sink` also below the last level: that overflows where an index is `2 ^ 30`
or more. An access outside of the array has no defined effect.
-/

namespace CodeLearning.Sorting

open Rearrangement SiftDown CInt

/-- The comparison in `sink`: whether `biggerchild` is the left child of `k`. -/
def biggerLeft (a : List Int32) (n k : Nat) : Option Bool :=
  if 2 * k + 1 > n then some true
  else do
    let x ← a[2 * k - 1]?
    let y ← a[2 * k]?
    return decide (x > y)

/-- `sink`; `k` is never zero. -/
def sink (n : Nat) (a : List Int32) (k : Nat) : Option (List Int32) :=
  if 2 * k ≤ intMax then
    if 1 ≤ k ∧ 2 * k ≤ n then do
      let left ← biggerLeft a n k
      let biggerchild := if left then 2 * k else 2 * k + 1
      let x ← a[k - 1]?
      let y ← a[biggerchild - 1]?
      let a ← if x < y then swap a (k - 1) (biggerchild - 1) else some a
      sink n a biggerchild
    else some a
  else none
termination_by n - k
decreasing_by
  split <;> omega

/-- The loop of `buildheap`, from `i` down. -/
def buildheapLoop (n : Nat) : Nat → List Int32 → Option (List Int32)
  | 0, a => some a
  | i + 1, a => do
    let a ← sink n a (i + 1)
    buildheapLoop n i a

/-- `buildheap`. -/
def buildheap (a : List Int32) : Option (List Int32) :=
  buildheapLoop a.length (a.length / 2) a

/-- The loop of `heapsort`, from `i` down. -/
def heapsortLoop : Nat → List Int32 → Option (List Int32)
  | 0, a => some a
  | i + 1, a => do
    let a ← swap a 0 i
    let a ← sink i a 1
    heapsortLoop i a

/-- `heapsort` of `sorting.c`. -/
def heapsort (a : List Int32) : Option (List Int32) := do
  let n := a.length
  let a ← buildheap a
  heapsortLoop n a

/-- The comparison in `percdown`: whether the right child of `i` is taken. -/
def takesRight (a : List Int32) (n i : Nat) : Option Bool :=
  if 2 * i + 1 ≠ n - 1 then do
    let x ← a[2 * i + 2]?
    let y ← a[2 * i + 1]?
    return decide (x > y)
  else some false

/-- The loop of `percdown`, with the array and `i` when it ends. -/
def percdownLoop (n : Nat) (tmp : Int32) (a : List Int32) (i : Nat) :
    Option (List Int32 × Nat) :=
  if 2 * i + 1 ≤ intMax then
    if 2 * i + 1 < n then do
      let right ← takesRight a n i
      let child := if right then 2 * i + 2 else 2 * i + 1
      let y ← a[child]?
      if tmp < y then do
        let a ← store a i y
        percdownLoop n tmp a child
      else some (a, i)
    else some (a, i)
  else none
termination_by n - i
decreasing_by
  split <;> omega

/-- `percdown`. -/
def percdown (a : List Int32) (i n : Nat) : Option (List Int32) := do
  let tmp ← a[i]?
  let (a, i) ← percdownLoop n tmp a i
  store a i tmp

/-- The first loop of `heapsort` of `heapsort.c`; `i` is one less. -/
def Sort.buildLoop (n : Nat) : Nat → List Int32 → Option (List Int32)
  | 0, a => some a
  | i + 1, a => do
    let a ← percdown a i n
    Sort.buildLoop n i a

/-- The second loop of `heapsort` of `heapsort.c`. -/
def Sort.heapsortLoop : Nat → List Int32 → Option (List Int32)
  | 0, a => some a
  | i + 1, a => do
    let a ← tmpSwap a 0 (i + 1)
    let a ← percdown a 0 (i + 1)
    Sort.heapsortLoop i a

/-- `heapsort` of `heapsort.c`. -/
def Sort.heapsort (a : List Int32) : Option (List Int32) := do
  let n := a.length
  let a ← Sort.buildLoop n (n / 2 + 1) a
  Sort.heapsortLoop (n - 1) a

/-! ## One element sinks -/

section Sink

variable {a : List Int32} {n k i : Nat} {tmp : Int32}

/-- The child that `sink` goes to. -/
theorem biggerLeft_spec (high : n ≤ a.length) (low : 1 ≤ k) (more : 2 * k ≤ n) :
    ∃ left, biggerLeft a n k = some left ∧
      IsChild n (k - 1) ((if left then 2 * k else 2 * k + 1) - 1) ∧
      ∀ j, IsChild n (k - 1) j →
        elements a j ≤ elements a ((if left then 2 * k else 2 * k + 1) - 1) := by
  rw [biggerLeft]
  by_cases last : 2 * k + 1 > n
  · rw [if_pos last]
    refine ⟨true, rfl, ⟨by simp only [if_true]; omega, Or.inl (by simp only [if_true]; omega)⟩, ?_⟩
    intro j child
    unfold IsChild at child
    rw [if_pos rfl, show j = 2 * k - 1 by omega]
  · rw [if_neg last, getElem?_eq_elements (by omega), getElem?_eq_elements (by omega)]
    refine ⟨_, rfl, ?_, ?_⟩
    · unfold IsChild
      split <;> omega
    · intro j child
      unfold IsChild at child
      by_cases greater : elements a (2 * k - 1) > elements a (2 * k)
      · rw [if_pos (decide_eq_true greater)]
        rcases child.2 with left | right
        · rw [show j = 2 * k - 1 by omega]
        · rw [show j = 2 * k by omega]
          exact le_of_lt greater
      · rw [if_neg (by simpa using greater), Nat.add_sub_cancel]
        rcases child.2 with left | right
        · rw [show j = 2 * k - 1 by omega]
          exact not_lt.mp greater
        · rw [show j = 2 * k by omega]

/-- `sink` restores the heap. -/
theorem sink_spec {root : Nat} (high : n ≤ a.length) (short : n < 2 ^ 30) (low : 1 ≤ k)
    (inside : k ≤ n ∨ k = 1) (below : root ≤ k - 1)
    (sift : Sift (elements a) n root (k - 1) (elements a (k - 1))) :
    ∃ a', sink n a k = some a' ∧ Arranges 0 n a a' ∧ HeapFrom (elements a') n root := by
  induction size : n - k using Nat.strong_induction_on generalizing a k with
  | _ size smaller =>
    have limit : intMax = 2 ^ 31 - 1 := rfl
    rw [sink, if_pos (by omega)]
    by_cases more : 1 ≤ k ∧ 2 * k ≤ n
    · rw [if_pos more]
      obtain ⟨left, chosen, child, greatest⟩ := biggerLeft_spec high low more.2
      obtain ⟨c, eq, twice⟩ : ∃ c, (if left then 2 * k else 2 * k + 1) = c ∧ 2 * k ≤ c :=
        ⟨_, rfl, by split <;> omega⟩
      rw [eq] at child greatest
      have insideC : c - 1 < n := child.1
      simp only [chosen, Option.bind_eq_bind, Option.bind_some, eq]
      rw [getElem?_eq_elements (by omega), getElem?_eq_elements (by omega)]
      simp only [Option.bind_some]
      by_cases less : elements a (k - 1) < elements a (c - 1)
      · have arranges : Arranges 0 n a (exchanged a (k - 1) (c - 1)) :=
          arranges_exchanged ⟨Nat.zero_le _, by omega⟩ ⟨Nat.zero_le _, insideC⟩ high
        have view : elements (exchanged a (k - 1) (c - 1)) = Function.update
            (Function.update (elements a) (k - 1) (elements a (c - 1))) (c - 1)
            (elements a (k - 1)) := elements_exchanged (by omega) (by omega)
        have down := sift.down below child greatest (le_of_lt less)
        -- The element that sinks is put into the array at once, not kept aside.
        have placed : Sift (elements (exchanged a (k - 1) (c - 1))) n root (c - 1)
            (elements (exchanged a (k - 1) (c - 1)) (c - 1)) := by
          rw [view, Function.update_self]
          exact down.place _
        rw [if_pos less, swap_eq (by omega) (by omega)]
        obtain ⟨a', ran, moved, heap⟩ := smaller (n - c) (by omega)
          (by rw [arranges.length]; exact high) (by omega) (by omega) (by omega) placed rfl
        exact ⟨a', ran, arranges.trans moved, heap⟩
      · have stays : HeapFrom (elements a) n root := by
          have filled := sift.fill fun j childJ =>
            le_trans (greatest j childJ) (not_lt.mp less)
          rwa [Function.update_eq_self] at filled
        rw [if_neg less]
        exact smaller (n - c) (by omega) high (by omega) (by omega) (by omega)
          (stays.sift (by omega)) rfl
    · rw [if_neg more]
      have filled := sift.fill fun j child => by
        unfold IsChild at child
        omega
      rw [Function.update_eq_self] at filled
      exact ⟨a, rfl, .refl _ _ _, filled⟩

/-- The child that `percdown` goes to. -/
theorem takesRight_spec (high : n ≤ a.length) (more : 2 * i + 1 < n) :
    ∃ right, takesRight a n i = some right ∧
      IsChild n i (if right then 2 * i + 2 else 2 * i + 1) ∧
      ∀ j, IsChild n i j → elements a j ≤ elements a (if right then 2 * i + 2 else 2 * i + 1) := by
  rw [takesRight]
  by_cases both : 2 * i + 1 ≠ n - 1
  · rw [if_pos both, getElem?_eq_elements (by omega), getElem?_eq_elements (by omega)]
    refine ⟨_, rfl, ?_, ?_⟩
    · unfold IsChild
      split <;> omega
    · intro j child
      unfold IsChild at child
      by_cases greater : elements a (2 * i + 2) > elements a (2 * i + 1)
      · rw [if_pos (decide_eq_true greater)]
        rcases child.2 with left | right
        · rw [left]
          exact le_of_lt greater
        · rw [right]
      · rw [if_neg (by simpa using greater)]
        rcases child.2 with left | right
        · rw [left]
        · rw [right]
          exact not_lt.mp greater
  · rw [if_neg both]
    refine ⟨false, rfl, ⟨more, Or.inl rfl⟩, ?_⟩
    intro j child
    unfold IsChild at child
    rw [if_neg (by decide), show j = 2 * i + 1 by omega]

/-- The loop of `percdown` leaves a place for the element. -/
theorem percdownLoop_spec {root : Nat} (high : n ≤ a.length) (short : n ≤ 2 ^ 30) (inside : i < n)
    (below : root ≤ i) (sift : Sift (elements a) n root i tmp) :
    ∃ a' i', percdownLoop n tmp a i = some (a', i') ∧ i' < n ∧ a'.length = a.length ∧
      Arranges 0 n (a.set i tmp) (a'.set i' tmp) ∧
      HeapFrom (elements (a'.set i' tmp)) n root := by
  induction size : n - i using Nat.strong_induction_on generalizing a i with
  | _ size smaller =>
    have limit : intMax = 2 ^ 31 - 1 := rfl
    have filled : (∀ j, IsChild n i j → elements a j ≤ tmp) →
        HeapFrom (elements (a.set i tmp)) n root := by
      intro least
      rw [elements_set (by omega)]
      exact sift.fill least
    rw [percdownLoop, if_pos (by omega)]
    by_cases more : 2 * i + 1 < n
    · rw [if_pos more]
      obtain ⟨right, chosen, child, greatest⟩ := takesRight_spec high more
      obtain ⟨c, eq, twice⟩ : ∃ c, (if right then 2 * i + 2 else 2 * i + 1) = c ∧ 2 * i < c :=
        ⟨_, rfl, by split <;> omega⟩
      rw [eq] at child greatest
      have insideC : c < n := child.1
      simp only [chosen, Option.bind_eq_bind, Option.bind_some, eq]
      rw [getElem?_eq_elements (by omega)]
      simp only [Option.bind_some]
      by_cases less : tmp < elements a c
      · have down := sift.down below child greatest (le_of_lt less)
        rw [← elements_set (by omega)] at down
        obtain ⟨a', i', ran, inside', length, arranges, heap⟩ := smaller (n - c) (by omega)
          (by simpa using high) insideC (by omega) down rfl
        rw [List.length_set] at length
        have moved : Arranges 0 n (a.set i tmp) ((a.set i (elements a c)).set c tmp) :=
          arranges_move ⟨Nat.zero_le _, inside⟩ ⟨Nat.zero_le _, insideC⟩ (by omega) high tmp
        rw [if_pos less, store_eq (by omega)]
        exact ⟨a', i', ran, inside', length, moved.trans arranges, heap⟩
      · rw [if_neg less]
        exact ⟨a, i, rfl, inside, rfl, .refl _ _ _,
          filled fun j childJ => le_trans (greatest j childJ) (not_lt.mp less)⟩
    · rw [if_neg more]
      refine ⟨a, i, rfl, inside, rfl, .refl _ _ _, filled fun j child => ?_⟩
      unfold IsChild at child
      omega

/-- `percdown` restores the heap. -/
theorem percdown_spec (high : n ≤ a.length) (short : n ≤ 2 ^ 30) (inside : i < n)
    (heap : HeapFrom (elements a) n (i + 1)) :
    ∃ a', percdown a i n = some a' ∧ Arranges 0 n a a' ∧ HeapFrom (elements a') n i := by
  obtain ⟨a', i', ran, inside', length, arranges, heap'⟩ :=
    percdownLoop_spec high short inside (Nat.le_refl i) (heap.start (elements a i))
  rw [set_elements (by omega)] at arranges
  refine ⟨a'.set i' (elements a i), ?_, arranges, heap'⟩
  rw [percdown, getElem?_eq_elements (by omega)]
  simp only [Option.bind_eq_bind, Option.bind_some, ran]
  exact store_eq (by omega) _

end Sink

/-! ## The heap is built -/

section Build

variable {a : List Int32} {n i : Nat}

/-- `buildheap` goes through the parents from the last one to the first one. -/
theorem buildheapLoop_spec (high : n ≤ a.length) (short : n < 2 ^ 30) (half : 2 * i ≤ n)
    (heap : HeapFrom (elements a) n i) :
    ∃ a', buildheapLoop n i a = some a' ∧ Arranges 0 n a a' ∧ HeapFrom (elements a') n 0 := by
  induction i generalizing a with
  | zero => exact ⟨a, rfl, .refl _ _ _, heap⟩
  | succ i lower =>
    obtain ⟨next, ran, moved, heap'⟩ := sink_spec high short (Nat.succ_pos i) (by omega)
      (Nat.le_refl i) (heap.start (elements a i))
    have length := moved.length
    obtain ⟨a', ran', moved', done⟩ := lower (by omega) (by omega) heap'
    rw [buildheapLoop, ran]
    exact ⟨a', ran', moved.trans moved', done⟩

/-- So does the first loop of `heapsort.c`, with positions behind the last parent. -/
theorem sort_buildLoop_spec (high : n ≤ a.length) (short : n ≤ 2 ^ 30) (inside : i ≤ n)
    (heap : HeapFrom (elements a) n i) :
    ∃ a', Sort.buildLoop n i a = some a' ∧ Arranges 0 n a a' ∧ HeapFrom (elements a') n 0 := by
  induction i generalizing a with
  | zero => exact ⟨a, rfl, .refl _ _ _, heap⟩
  | succ i lower =>
    obtain ⟨next, ran, moved, heap'⟩ := percdown_spec high short inside heap
    have length := moved.length
    obtain ⟨a', ran', moved', done⟩ := lower (by omega) (by omega) heap'
    rw [Sort.buildLoop, ran]
    exact ⟨a', ran', moved.trans moved', done⟩

end Build

/-! ## The greatest elements go to the end -/

section Phases

variable {a now later : List Int32} {m : Nat}

/-- The first elements are a heap, and none of them and of the others before it is greater than
one that follows the heap. -/
structure Phase (a now : List Int32) (m : Nat) : Prop where
  /-- The array is rearranged. -/
  arranges : Arranges 0 a.length a now
  /-- The first elements are a heap. -/
  heap : HeapFrom (elements now) m 0
  /-- The others are in their places. -/
  settled : ∀ q, m ≤ q → q < a.length → ∀ p ≤ q, elements now p ≤ elements now q

/-- The last element of the heap is exchanged for the root. -/
theorem Phase.exchange (phase : Phase a now (m + 1)) (high : m + 1 ≤ a.length) :
    HeapFrom (elements (exchanged now 0 m)) m 1 := by
  have length := phase.arranges.length
  intro p j low child
  have inside : j < m ∧ p < m ∧ j ≠ 0 ∧ p ≠ 0 := by
    unfold IsChild at child
    omega
  rw [elements_exchanged (by omega) (by omega), Function.update_of_ne (by omega),
    Function.update_of_ne (by omega), Function.update_of_ne (by omega),
    Function.update_of_ne (by omega)]
  exact phase.heap p j (Nat.zero_le _) ⟨Nat.lt_succ_of_lt child.1, child.2⟩

/-- The heap without its greatest element is a heap again. -/
theorem Phase.next (phase : Phase a now (m + 1)) (high : m + 1 ≤ a.length)
    (moved : Arranges 0 m (exchanged now 0 m) later) (heap : HeapFrom (elements later) m 0) :
    Phase a later m := by
  have length := phase.arranges.length
  have swapped : Arranges 0 (m + 1) now (exchanged now 0 m) :=
    arranges_exchanged ⟨Nat.le_refl _, by omega⟩ ⟨Nat.zero_le _, by omega⟩ (by omega)
  have all : Arranges 0 (m + 1) now later :=
    swapped.trans (moved.mono (Nat.le_refl _) (Nat.le_succ m))
  have top : elements later m = elements now 0 := by
    rw [moved.rearranged.outside (Or.inr (Nat.le_refl m)), elements_exchanged (by omega) (by omega),
      Function.update_self]
  refine ⟨phase.arranges.trans (all.mono (Nat.le_refl _) high), heap, ?_⟩
  intro q low highQ p le
  -- An element before the new end of the heap was an element of the heap.
  have early : p ≤ m → ∃ p', p' < m + 1 ∧ elements later p = elements now p' := by
    intro inHeap
    obtain ⟨p', -, high', same⟩ := all.rearranged.inside (Nat.zero_le p) (by omega)
    exact ⟨p', high', same⟩
  by_cases last : q = m
  · obtain ⟨p', high', same⟩ := early (by omega)
    rw [last, top, same]
    exact phase.heap.root high'
  · rw [all.rearranged.outside (show q < 0 ∨ m + 1 ≤ q by omega)]
    by_cases inHeap : p ≤ m
    · obtain ⟨p', high', same⟩ := early inHeap
      rw [same]
      exact phase.settled q (by omega) highQ p' (by omega)
    · rw [all.rearranged.outside (show p < 0 ∨ m + 1 ≤ p by omega)]
      exact phase.settled q (by omega) highQ p le

/-- A heap of at most one element is the end. -/
theorem Phase.sorts {result : Option (List Int32)} (phase : Phase a now m) (few : m ≤ 1)
    (ran : result = some now) : Sorts result a := by
  refine sorts_of_arranges ran phase.arranges fun p q _ le high => ?_
  by_cases first : q = 0
  · rw [show p = q by omega]
  · exact phase.settled q (by omega) high p le

/-- A heap of all elements is the start. -/
theorem phase_start (arranges : Arranges 0 a.length a now)
    (heap : HeapFrom (elements now) a.length 0) : Phase a now a.length :=
  ⟨arranges, heap, fun q low high => by omega⟩

/-- The loop of `heapsort` of `sorting.c`. -/
theorem heapsortLoop_sorts (short : a.length < 2 ^ 30) (high : m ≤ a.length)
    (phase : Phase a now m) : Sorts (heapsortLoop m now) a := by
  induction m generalizing now with
  | zero => exact phase.sorts (Nat.zero_le 1) rfl
  | succ m lower =>
    have length := phase.arranges.length
    have swapped : (exchanged now 0 m).length = now.length := length_exchanged now 0 m
    obtain ⟨next, ran, moved, heap⟩ := sink_spec (show m ≤ (exchanged now 0 m).length by omega)
      (by omega) (Nat.le_refl 1) (Or.inr rfl) (Nat.zero_le _) ((phase.exchange high).start _)
    rw [heapsortLoop, swap_eq (by omega) (by omega)]
    simp only [Option.bind_eq_bind, Option.bind_some, ran]
    exact lower (by omega) (phase.next high moved heap)

/-- The second loop of `heapsort` of `heapsort.c`. -/
theorem sort_heapsortLoop_sorts (short : a.length ≤ 2 ^ 30) (high : m + 1 ≤ a.length)
    (phase : Phase a now (m + 1)) : Sorts (Sort.heapsortLoop m now) a := by
  induction m generalizing now with
  | zero => exact phase.sorts (Nat.le_refl 1) rfl
  | succ m lower =>
    have length := phase.arranges.length
    have swapped : (exchanged now 0 (m + 1)).length = now.length := length_exchanged now 0 (m + 1)
    obtain ⟨next, ran, moved, heap⟩ :=
      percdown_spec (show m + 1 ≤ (exchanged now 0 (m + 1)).length by omega) (by omega)
        (Nat.succ_pos m) (phase.exchange high)
    rw [Sort.heapsortLoop, tmpSwap_eq (by omega) (by omega)]
    simp only [Option.bind_eq_bind, Option.bind_some, ran]
    exact lower (by omega) (phase.next high moved heap)

end Phases

/-- `heapsort` of `sorting.c` sorts an array of fewer than `2 ^ 30` elements. -/
theorem heapsort_sorts {a : List Int32} (short : a.length < 2 ^ 30) : Sorts (heapsort a) a := by
  obtain ⟨built, ran, moved, heap⟩ := buildheapLoop_spec (Nat.le_refl a.length) short
    (show 2 * (a.length / 2) ≤ a.length by omega) (heapFrom_of_half (by omega))
  rw [heapsort, buildheap]
  simp only [ran, Option.bind_eq_bind, Option.bind_some]
  exact heapsortLoop_sorts short (Nat.le_refl _) (phase_start moved heap)

/-- `heapsort` of `heapsort.c` sorts a non-empty one. -/
theorem sort_heapsort_sorts {a : List Int32} (nonempty : a ≠ []) (short : a.length ≤ 2 ^ 30) :
    Sorts (Sort.heapsort a) a := by
  have positive := List.length_pos_iff.mpr nonempty
  obtain ⟨built, ran, moved, heap⟩ := sort_buildLoop_spec (Nat.le_refl a.length) short
    (show a.length / 2 + 1 ≤ a.length by omega) (heapFrom_of_half (by omega))
  have phase := phase_start moved heap
  rw [show a.length = a.length - 1 + 1 by omega] at phase
  rw [Sort.heapsort]
  simp only [ran, Option.bind_eq_bind, Option.bind_some]
  exact sort_heapsortLoop_sorts short (by omega) phase

/-! ## Overflow -/

/-- From the last parent of a great heap `sink` goes to a child whose double is no `int`. -/
theorem sink_overflow {n : Nat} (great : 2 ^ 30 ≤ n) (a : List Int32) :
    sink n a (n / 2) = none := by
  have limit : intMax = 2 ^ 31 - 1 := rfl
  have ends : ∀ (a : List Int32) (c : Nat), 2 * (n / 2) ≤ c → sink n a c = none := by
    intro a c beyond
    rw [sink, if_neg (by omega)]
  rw [sink]
  by_cases fits : 2 * (n / 2) ≤ intMax
  · rw [if_pos fits, if_pos (by omega)]
    simp only [Option.bind_eq_bind, Option.bind_eq_none_iff]
    intro left _ x _ y _
    have beyond : 2 * (n / 2) ≤ if left then 2 * (n / 2) else 2 * (n / 2) + 1 := by
      split <;> omega
    split
    · exact Option.bind_eq_none_iff.mpr fun a' _ => ends a' _ beyond
    · exact ends a _ beyond
  · rw [if_neg fits]

/-- `heapsort` of `sorting.c` has no defined result on an array of `2 ^ 30` elements or more. -/
theorem heapsort_overflow {a : List Int32} (great : 2 ^ 30 ≤ a.length) : heapsort a = none := by
  have parent : a.length / 2 = a.length / 2 - 1 + 1 := by omega
  have fails : buildheap a = none := by
    rw [buildheap, parent, buildheapLoop, ← parent, sink_overflow great]
    rfl
  rw [heapsort]
  simp only [fails, Option.bind_eq_bind, Option.bind_none]

/-- Both versions of `heapsort` end with the same array, which is the given one sorted. -/
def HeapsortsAgree (a : List Int32) : Prop :=
  ∃ sorted, heapsort a = some sorted ∧ Sort.heapsort a = some sorted ∧
    sorted.Pairwise (· ≤ ·) ∧ sorted.Perm a

/-- They do on a short array. -/
theorem heapsortsAgree_of_short {a : List Int32} (nonempty : a ≠ []) (short : a.length < 2 ^ 30) :
    HeapsortsAgree a := by
  obtain ⟨sorted, ran, increasing, perm⟩ := heapsort_sorts short
  exact ⟨sorted, ran, (heapsort_sorts short).same ran (sort_heapsort_sorts nonempty (by omega)),
    increasing, perm⟩

/-- They do not on a long one. -/
theorem not_heapsortsAgree {a : List Int32} (great : 2 ^ 30 ≤ a.length) : ¬ HeapsortsAgree a := by
  rintro ⟨sorted, ran, -⟩
  rw [heapsort_overflow great] at ran
  cases ran

/-- For every non-empty array, the two versions of `heapsort` end with the same array, which is the
given one sorted, and access only its elements, exactly when there are fewer than `2 ^ 30`
elements. -/
theorem heapsorts_agree_iff (a : List Int32) (nonempty : a ≠ []) :
    HeapsortsAgree a ↔ a.length < 2 ^ 30 := by
  by_cases short : a.length < 2 ^ 30
  · exact iff_of_true (heapsortsAgree_of_short nonempty short) short
  · exact iff_of_false (not_heapsortsAgree (by omega)) short

/-- Three elements, two of them equal. -/
theorem heapsorts_agree_three : HeapsortsAgree [2, 3, 2] :=
  (heapsorts_agree_iff [2, 3, 2] (by decide)).mpr (by decide)

/-- An array of `2 ^ 30` equal elements, which is sorted from the start. -/
theorem heapsorts_overflow : List.replicate (2 ^ 30) (0 : Int32) ≠ [] ∧
    ¬ HeapsortsAgree (List.replicate (2 ^ 30) 0) := by
  have length : (List.replicate (2 ^ 30) (0 : Int32)).length = 2 ^ 30 := List.length_replicate
  refine ⟨fun empty => ?_, not_heapsortsAgree (Nat.le_of_eq length.symm)⟩
  rw [empty] at length
  cases length

end CodeLearning.Sorting
