import CodeLearning.Lib.BinaryHeap
import CodeLearning.Lib.CInt

/-!
# The array heap

`heap.c` keeps the elements of a priority queue in a heap-ordered array from index 1 on, with
`mindata` at index 0 as the sentinel at which the loop of `insert` stops. Sizes and indices are of
type `int`, and `deletemin` doubles the index of the hole before it compares it with the size: this
overflows once the hole is at `2 ^ 30`. An overflow, an access outside of the array and a loop that
has not ended after so many rounds are all `none`, so a result says that none of them happens.
-/

namespace CodeLearning.PriorityQueue.ArrayHeap

open BinaryHeap CInt

variable {α : Type} [LinearOrder α]

/-- `struct heapstruct`. -/
structure Heap (α : Type) where
  /-- Number of elements the array has room for after the sentinel. -/
  capacity : Nat
  /-- Number of elements. -/
  size : Nat
  /-- The array. -/
  elements : Nat → α

/-- `h->elements[i]`. -/
def Heap.read (h : Heap α) (i : Nat) : Option α :=
  if i ≤ h.capacity then some (h.elements i) else none

/-- `h->elements[i] = x`. -/
def Heap.write (h : Heap α) (i : Nat) (x : α) : Option (Heap α) :=
  if i ≤ h.capacity then some { h with elements := Function.update h.elements i x } else none

/-- `isfull`. -/
def Heap.isfull (h : Heap α) : Bool := h.size == h.capacity

/-- `isempty`. -/
def Heap.isempty (h : Heap α) : Bool := h.size == 0

/-- `initialize`, when there is memory for `maxelements + 1` elements; the array holds anything
before. -/
def initializeHeap (mindata : α) (maxelements : Nat) (memory : Nat → α) : Option (Heap α) := do
  let _ ← checkedNat (maxelements + 1)
  return { capacity := maxelements, size := 0, elements := Function.update memory 0 mindata }

/-- The loop of `insert` from `i` on, with the index where it stops. -/
def insertLoop : Nat → Heap α → α → Nat → Option (Heap α × Nat)
  | 0, _, _, _ => none
  | fuel + 1, h, x, i => do
    let above ← h.read (i / 2)
    if x < above then
      let h ← h.write i above
      insertLoop fuel h x (i / 2)
    else
      return (h, i)

/-- `insert`. -/
def insert (fuel : Nat) (h : Heap α) (x : α) : Option (Heap α) :=
  if h.isfull then some h
  else do
    let h := { h with size := h.size + 1 }
    let (h, i) ← insertLoop fuel h x h.size
    h.write i x

/-- The lesser child that `deletemin` goes on with, from the left one. -/
def lesserChild (h : Heap α) (child : Nat) : Option Nat :=
  if child ≠ h.size then do
    let next ← h.read (child + 1)
    let this ← h.read child
    return if next < this then child + 1 else child
  else
    some child

/-- The loop of `deletemin` from `i` on, with the index where it stops. -/
def deleteminLoop : Nat → Heap α → α → Nat → Option (Heap α × Nat)
  | 0, _, _, _ => none
  | fuel + 1, h, lastelement, i => do
    let left ← checkedNat (i * 2)
    if left ≤ h.size then
      let child ← lesserChild h left
      let element ← h.read child
      if element < lastelement then
        let h ← h.write i element
        deleteminLoop fuel h lastelement child
      else
        return (h, i)
    else
      return (h, i)

/-- `deletemin`: the element it returns and the heap after it. -/
def deletemin (fuel : Nat) (h : Heap α) : Option (α × Heap α) :=
  if h.isempty then do
    let sentinel ← h.read 0
    return (sentinel, h)
  else do
    let minelement ← h.read 1
    let lastelement ← h.read h.size
    let (h, i) ← deleteminLoop fuel { h with size := h.size - 1 } lastelement 1
    let h ← h.write i lastelement
    return (minelement, h)

/-- The elements of the queue. -/
def Heap.contents (h : Heap α) : Multiset α := BinaryHeap.contents h.elements h.size

/-- What calls keep: the sentinel, room for the elements, and heap order. -/
structure Heap.Inv (mindata : α) (maxelements : Nat) (h : Heap α) : Prop where
  /-- The capacity is the one that was asked for. -/
  capacity : h.capacity = maxelements
  /-- The elements fit. -/
  fits : h.size ≤ maxelements
  /-- The sentinel is in place. -/
  sentinel : h.elements 0 = mindata
  /-- The elements are in heap order. -/
  ordered : Ordered h.elements h.size

/-! ## The loops -/

section Loops

variable {h h' : Heap α} {x mindata : α} {i fuel maxelements : Nat}

omit [LinearOrder α] in
/-- An access inside of the array reads. -/
theorem Heap.read_eq (inside : i ≤ h.capacity) : h.read i = some (h.elements i) := if_pos inside

omit [LinearOrder α] in
/-- An access inside of the array writes. -/
theorem Heap.write_eq (inside : i ≤ h.capacity) (x : α) :
    h.write i x = some { h with elements := Function.update h.elements i x } := if_pos inside

/-- What a loop leaves: a hole that the element fills, with the contents it had before. -/
structure Stops (h : Heap α) (i : Nat) (x : α) (h' : Heap α) (i' : Nat) : Prop where
  /-- The fields other than the array are unchanged. -/
  frame : h'.capacity = h.capacity ∧ h'.size = h.size
  /-- So is the sentinel. -/
  sentinel : h'.elements 0 = h.elements 0
  /-- The hole is a position. -/
  inside : 1 ≤ i' ∧ i' ≤ h.size
  /-- With the element in the hole the contents are the same. -/
  contents : BinaryHeap.contents (Function.update h'.elements i' x) h.size =
    BinaryHeap.contents (Function.update h.elements i x) h.size
  /-- The element fills the hole. -/
  ordered : Ordered (Function.update h'.elements i' x) h.size

/-- A round of a loop moves the hole from `i` to `p`, and the rest of the loop stops. -/
theorem Stops.move {p i' : Nat} (insideI : 1 ≤ i ∧ i ≤ h.size) (insideP : 1 ≤ p ∧ p ≤ h.size)
    (apart : p ≠ i)
    (rest : Stops { h with elements := Function.update h.elements i (h.elements p) } p x h' i') :
    Stops h i x h' i' where
  frame := rest.frame
  sentinel := by
    have above : 0 ≠ i := by omega
    rw [rest.sentinel]
    exact Function.update_of_ne above _ _
  inside := rest.inside
  contents := by
    rw [← contents_move insideI insideP apart x]
    exact rest.contents
  ordered := rest.ordered

/-- The child that `deletemin` goes on with is a least one. -/
theorem lesserChild_spec (fits : h.size ≤ h.capacity) (child : i * 2 ≤ h.size) :
    ∃ c, lesserChild h (i * 2) = some c ∧ c / 2 = i ∧ c ≤ h.size ∧
      ∀ j ≤ h.size, j / 2 = i → h.elements c ≤ h.elements j := by
  by_cases last : i * 2 = h.size
  · refine ⟨i * 2, if_neg (not_not.mpr last), by omega, child, fun j high below => ?_⟩
    have only : j = i * 2 := by omega
    rw [only]
  · have computed : lesserChild h (i * 2) = some
        (if h.elements (i * 2 + 1) < h.elements (i * 2) then i * 2 + 1 else i * 2) := by
      simp only [lesserChild, if_pos last, Heap.read_eq (show i * 2 + 1 ≤ h.capacity by omega),
        Heap.read_eq (show i * 2 ≤ h.capacity by omega), Option.bind_eq_bind, Option.bind_some]
      rfl
    rw [computed]
    have children : ∀ j, j / 2 = i → j = i * 2 ∨ j = i * 2 + 1 := fun j below => by omega
    by_cases less : h.elements (i * 2 + 1) < h.elements (i * 2)
    · refine ⟨i * 2 + 1, by rw [if_pos less], by omega, by omega, fun j _ below => ?_⟩
      rcases children j below with rfl | rfl
      · exact le_of_lt less
      · exact le_refl _
    · refine ⟨i * 2, by rw [if_neg less], by omega, child, fun j _ below => ?_⟩
      rcases children j below with rfl | rfl
      · exact le_refl _
      · exact not_lt.mp less

/-- The loop of `deletemin` stops, at a leaf at the latest, when twice the size is an `int`. -/
theorem deleteminLoop_stops (fits : h.size ≤ h.capacity) (short : h.size * 2 ≤ intMax)
    (hole : Hole h.elements h.size i)
    (above : 2 ≤ i → h.elements (i / 2) ≤ x) (enough : h.size < fuel + i) :
    ∃ h' i', deleteminLoop fuel h x i = some (h', i') ∧ Stops h i x h' i' := by
  -- The hole goes down: its position at least doubles in every round.
  induction fuel generalizing h i with
  | zero =>
    have inside := hole.inside
    omega
  | succ fuel more =>
    have inside := hole.inside
    have left : checkedNat (i * 2) = some (i * 2) := checkedNat_eq (by omega)
    by_cases inner : i * 2 ≤ h.size
    · obtain ⟨c, picked, child, high, least⟩ := lesserChild_spec fits inner
      have readable : c ≤ h.capacity := by omega
      by_cases less : h.elements c < x
      · have apart : c ≠ i := by omega
        have lower : Function.update h.elements i (h.elements c) (c / 2) ≤ x := by
          rw [child, Function.update_self]
          exact le_of_lt less
        obtain ⟨h', i', looped, stops⟩ :=
          more (h := { h with elements := Function.update h.elements i (h.elements c) }) fits short
            (hole.down child high least) (fun _ => lower) (show h.size < fuel + c by omega)
        refine ⟨h', i', ?_, stops.move inside (by omega) apart⟩
        simp only [deleteminLoop, left, if_pos inner, picked, Heap.read_eq readable,
          Option.bind_eq_bind, Option.bind_some, if_pos less,
          Heap.write_eq (show i ≤ h.capacity by omega), looped]
      · refine ⟨h, i, ?_, ⟨rfl, rfl⟩, rfl, inside, rfl, hole.fill above fun j highJ below => ?_⟩
        · simp only [deleteminLoop, left, if_pos inner, picked, Heap.read_eq readable,
            Option.bind_eq_bind, Option.bind_some, if_neg less]
          rfl
        · exact le_trans (not_lt.mp less) (least j highJ below)
    · refine ⟨h, i, ?_, ⟨rfl, rfl⟩, rfl, inside, rfl, hole.fill above fun j highJ below => ?_⟩
      · simp only [deleteminLoop, left, Option.bind_eq_bind, Option.bind_some, if_neg inner]
        rfl
      · omega

/-! ## The functions -/

omit [LinearOrder α] in
/-- `initialize` makes an empty heap when the number of cells is an `int`. -/
theorem initializeHeap_eq (int : maxelements + 1 ≤ intMax) (mindata : α) (memory : Nat → α) :
    initializeHeap mindata maxelements memory = some
      { capacity := maxelements, size := 0, elements := Function.update memory 0 mindata } := by
  simp only [initializeHeap, checkedNat_eq int, Option.bind_eq_bind, Option.bind_some]
  rfl

/-- The element is put where a loop stops. -/
theorem Stops.filled {i' : Nat} (stops : Stops h i x h' i') (fits : h.size ≤ maxelements)
    (capacity : h.capacity = maxelements) (sentinel : h.elements 0 = mindata) :
    ∃ final, h'.write i' x = some final ∧ final.Inv mindata maxelements ∧
      final.contents = BinaryHeap.contents (Function.update h.elements i x) h.size := by
  have inside := stops.inside
  have sizes := stops.frame
  have writable : i' ≤ h'.capacity := by omega
  have above : 0 ≠ i' := by omega
  refine ⟨_, Heap.write_eq writable x, ⟨?_, ?_, ?_, ?_⟩, ?_⟩
  · exact sizes.1.trans capacity
  · exact sizes.2.trans_le fits
  · exact (Function.update_of_ne above _ _).trans (stops.sentinel.trans sentinel)
  · rw [sizes.2]
    exact stops.ordered
  · rw [← stops.contents, Heap.contents, sizes.2]

/-- `deletemin` of a heap that is not empty returns a minimum and removes it, when the heap has room
for at most `2 ^ 30` elements. -/
theorem deletemin_spec (inv : h.Inv mindata maxelements) (short : maxelements ≤ 2 ^ 30)
    (present : ¬ h.isempty) (enough : maxelements < fuel) :
    ∃ x h', deletemin fuel h = some (x, h') ∧ h'.Inv mindata maxelements ∧
      (∀ y ∈ h.contents, x ≤ y) ∧ h.contents = x ::ₘ h'.contents := by
  have least : ∀ y ∈ h.contents, h.elements 1 ≤ y := by
    intro y mem
    obtain ⟨j, low, high, rfl⟩ := mem_contents.mp mem
    exact inv.ordered.root_le low high
  obtain ⟨n, size⟩ : ∃ n, h.size = n + 1 :=
    Nat.exists_eq_succ_of_ne_zero (by simpa [Heap.isempty] using present)
  have fits := inv.fits
  have ordered := inv.ordered
  rw [size] at ordered fits
  have twice : n * 2 ≤ intMax := by
    unfold intMax
    omega
  have readable : ∀ i ≤ n + 1, h.read i = some (h.elements i) := fun i high =>
    Heap.read_eq (by rw [inv.capacity]; omega)
  have computed : deletemin fuel h = (deleteminLoop fuel { h with size := n }
      (h.elements (n + 1)) 1).bind fun stopped =>
        (stopped.1.write stopped.2 (h.elements (n + 1))).map fun h' => (h.elements 1, h') := by
    simp only [deletemin, if_neg present, size, readable 1 (by omega), readable (n + 1) (by omega),
      Option.bind_eq_bind, Option.bind_some, Nat.add_sub_cancel, Option.map_eq_bind]
    rfl
  rw [computed]
  by_cases single : n = 0
  · -- The loop ends before its first round, and the only element is written past the new end.
    subst single
    obtain ⟨fuel, rfl⟩ : ∃ rounds, fuel = rounds + 1 :=
      Nat.exists_eq_succ_of_ne_zero (by omega)
    have writable : 1 ≤ h.capacity := by rw [inv.capacity]; omega
    have left : checkedNat (1 * 2) = some (1 * 2) := rfl
    refine ⟨h.elements 1,
      { h with size := 0, elements := Function.update h.elements 1 (h.elements 1) }, ?_,
      ⟨inv.capacity, Nat.zero_le _, ?_, ordered_zero _⟩, least, ?_⟩
    · simp [deleteminLoop, left, Heap.write_eq, writable]
    · simpa using inv.sentinel
    · simp [Heap.contents, size, BinaryHeap.contents]
  · obtain ⟨h1, i, looped, stops⟩ :=
      deleteminLoop_stops (h := { h with size := n }) (x := h.elements (n + 1))
        (show n ≤ h.capacity by rw [inv.capacity]; omega) twice (ordered.hole_root (by omega))
        (fun low => absurd low (by decide)) (show n < fuel + 1 by omega)
    obtain ⟨h2, written, inv2, same⟩ :=
      stops.filled (show n ≤ maxelements by omega) inv.capacity inv.sentinel
    refine ⟨h.elements 1, h2, ?_, inv2, least, ?_⟩
    · rw [looped, Option.bind_some, written, Option.map_some]
    · have root : 1 ≤ 1 ∧ 1 ≤ n := by omega
      rw [same, Heap.contents, size, contents_succ]
      exact contents_exchange root _

end Loops

/-! ## Sequences of calls -/

/-- A call; the elements are not below `mindata`. -/
inductive Call (mindata : α) where
  /-- `insert`. -/
  | insert (x : α) (low : mindata ≤ x)
  /-- `deletemin`. -/
  | deletemin

/-- A heap with its history. -/
structure History (α : Type) where
  /-- The heap. -/
  heap : Heap α
  /-- The elements that were inserted when the heap was not full. -/
  inserted : Multiset α
  /-- The elements that were returned when the heap was not empty. -/
  returned : Multiset α

variable {mindata : α}

/-- A call on the heap. -/
def perform (fuel : Nat) (s : History α) : Call mindata → Option (History α)
  | .insert x _ => do
    let h ← insert fuel s.heap x
    return { s with
      heap := h, inserted := if s.heap.isfull then s.inserted else x ::ₘ s.inserted }
  | .deletemin => do
    let (x, h) ← deletemin fuel s.heap
    return { s with
      heap := h, returned := if s.heap.isempty then s.returned else x ::ₘ s.returned }

/-- Calls on a heap that `initialize` made. -/
def run (fuel maxelements : Nat) (memory : Nat → α) (calls : List (Call mindata)) :
    Option (History α) := do
  let h ← initializeHeap mindata maxelements memory
  calls.foldlM (perform fuel) ⟨h, 0, 0⟩

section Calls

variable {fuel maxelements : Nat} {s : History α}

/-- The heap holds what was inserted and not returned, in order. -/
structure History.Inv (mindata : α) (maxelements : Nat) (s : History α) : Prop where
  /-- The invariant of the heap. -/
  heap : s.heap.Inv mindata maxelements
  /-- Every element that was inserted is there or was returned. -/
  balance : s.heap.contents + s.returned = s.inserted

end Calls

/-! ## The overflow

A heap that is filled with `mindata` and gets one greater element at last: the next `deletemin`
moves its hole down along the left children, since none of them is less than its sibling. -/

section Overflow

variable {h : Heap α} {x y : α} {n fuel maxelements : Nat}

/-- A heap with so many positions, all of which hold `mindata`. -/
structure Filled (mindata : α) (maxelements n : Nat) (h : Heap α) : Prop where
  /-- The capacity. -/
  capacity : h.capacity = maxelements
  /-- The number of elements. -/
  size : h.size = n
  /-- They are `mindata`, as the sentinel. -/
  least : ∀ j ≤ n, h.elements j = mindata

/-- An element that is not below `mindata` stays where `insert` starts with it. -/
theorem Filled.insert (filled : Filled mindata maxelements n h) (room : n < maxelements)
    (low : mindata ≤ x) (positive : 0 < fuel) :
    insert fuel h x = some
      { h with size := n + 1, elements := Function.update h.elements (n + 1) x } := by
  obtain ⟨rounds, rfl⟩ : ∃ rounds, fuel = rounds + 1 := Nat.exists_eq_succ_of_ne_zero (by omega)
  have capacity := filled.capacity
  have size := filled.size
  have notFull : ¬ h.isfull := by
    simp only [Heap.isfull, beq_iff_eq]
    omega
  have above : h.elements ((n + 1) / 2) = mindata := filled.least _ (by omega)
  have read : Heap.read { h with size := n + 1 } ((n + 1) / 2) = some mindata :=
    (Heap.read_eq (show (n + 1) / 2 ≤ h.capacity by omega)).trans (congrArg some above)
  have written : Heap.write { h with size := n + 1 } (n + 1) x = some
      { h with size := n + 1, elements := Function.update h.elements (n + 1) x } :=
    Heap.write_eq (h := { h with size := n + 1 }) (show n + 1 ≤ h.capacity by omega) x
  simp only [ArrayHeap.insert, if_neg notFull, insertLoop, size, read, if_neg (not_lt.mpr low),
    Option.bind_eq_bind, Option.bind_some, Option.pure_def, written]

omit [LinearOrder α] in
/-- After one more `mindata` the heap has one more position. -/
theorem Filled.succ (filled : Filled mindata maxelements n h) :
    Filled mindata maxelements (n + 1)
      { h with size := n + 1, elements := Function.update h.elements (n + 1) mindata } where
  capacity := filled.capacity
  size := rfl
  least j high := by
    by_cases last : j = n + 1
    · rw [last]
      exact Function.update_self _ _ _
    · exact (Function.update_of_ne last _ _).trans (filled.least j (by omega))

/-- One more call. -/
theorem run_append (memory : Nat → α) (calls : List (Call mindata)) (call : Call mindata) :
    run fuel maxelements memory (calls ++ [call]) =
      (run fuel maxelements memory calls).bind fun s => perform fuel s call := by
  simp only [run, List.foldlM_append, List.foldlM_cons, List.foldlM_nil, bind_pure,
    Option.bind_eq_bind, Option.bind_assoc]

/-- The calls that fill a heap with `mindata`. -/
def filling (mindata : α) (n : Nat) : List (Call mindata) :=
  List.replicate n (.insert mindata (le_refl mindata))

/-- They do. -/
theorem run_filling (int : maxelements + 1 ≤ intMax) (memory : Nat → α) (positive : 0 < fuel)
    (room : n ≤ maxelements) :
    ∃ s, run fuel maxelements memory (filling mindata n) = some s ∧
      Filled mindata maxelements n s.heap := by
  induction n with
  | zero =>
    refine ⟨⟨{ capacity := maxelements, size := 0, elements := Function.update memory 0 mindata },
      0, 0⟩, ?_, rfl, rfl, ?_⟩
    · simp only [run, initializeHeap_eq int, Option.bind_eq_bind, Option.bind_some]
      rfl
    · intro j high
      rw [Nat.le_zero.mp high]
      exact Function.update_self 0 mindata memory
  | succ n before =>
    obtain ⟨s, ran, filled⟩ := before (by omega)
    have inserted := filled.insert (by omega) (le_refl mindata) positive
    have more : filling mindata (n + 1) =
        filling mindata n ++ [.insert mindata (le_refl mindata)] := List.replicate_succ'
    rw [more, run_append, ran, Option.bind_some]
    simp only [perform, inserted, Option.bind_eq_bind, Option.bind_some]
    exact ⟨_, rfl, filled.succ⟩

/-- The hole goes down along the left children until twice its index overflows. -/
theorem deleteminLoop_overflow (size : h.size = 2 ^ 30) (capacity : 2 ^ 30 ≤ h.capacity)
    (least : ∀ j ≤ 2 ^ 30, h.elements j = mindata) (above : mindata < y) {k : Nat} (low : k ≤ 30) :
    deleteminLoop fuel h y (2 ^ k) = none := by
  induction fuel generalizing h k with
  | zero => rfl
  | succ fuel more =>
    by_cases bottom : k = 30
    · subst bottom
      have overflows : checkedNat (2 ^ 30 * 2) = none := checkedNat_eq_none (by decide)
      simp only [deleteminLoop, overflows, Option.bind_eq_bind, Option.bind_none]
    · have next : 2 ^ k * 2 = 2 ^ (k + 1) := (Nat.pow_succ 2 k).symm
      have inner : 2 ^ (k + 1) ≤ 2 ^ 30 := Nat.pow_le_pow_right (by decide) (by omega)
      have left : checkedNat (2 ^ (k + 1)) = some (2 ^ (k + 1)) :=
        checkedNat_eq (Nat.le_trans inner (by decide))
      have picked : lesserChild h (2 ^ (k + 1)) = some (2 ^ (k + 1)) := by
        by_cases last : 2 ^ (k + 1) = h.size
        · exact if_neg (not_not.mpr last)
        · have inside : 2 ^ (k + 1) + 1 ≤ 2 ^ 30 := by omega
          simp only [lesserChild, if_pos last,
            Heap.read_eq (show 2 ^ (k + 1) + 1 ≤ h.capacity by omega),
            Heap.read_eq (show 2 ^ (k + 1) ≤ h.capacity by omega), least _ inside, least _ inner,
            Option.bind_eq_bind, Option.bind_some, lt_irrefl, if_false, Option.pure_def]
      have still : ∀ j ≤ 2 ^ 30, Function.update h.elements (2 ^ k) mindata j = mindata := by
        intro j high
        by_cases here : j = 2 ^ k
        · rw [here, Function.update_self]
        · rw [Function.update_of_ne here, least j high]
      have deeper := more (h := { h with elements := Function.update h.elements (2 ^ k) mindata })
        size capacity still (show k + 1 ≤ 30 by omega)
      rw [size] at deeper
      simp only [deleteminLoop, next, left, size, if_pos inner, picked,
        Heap.read_eq (show 2 ^ (k + 1) ≤ h.capacity by omega), least _ inner, if_pos above,
        Heap.write_eq (show 2 ^ k ≤ h.capacity by omega), Option.bind_eq_bind, Option.bind_some,
        deeper]

/-- The calls that fill a heap with `mindata` and one greater element. -/
def crowding (above : mindata < y) (n : Nat) : List (Call mindata) :=
  filling mindata n ++ [.insert y (le_of_lt above)]

/-- With one greater element behind `2 ^ 30` others, `deletemin` overflows. -/
theorem deletemin_overflow (size : h.size = 2 ^ 30 + 1) (capacity : 2 ^ 30 < h.capacity)
    (least : ∀ j ≤ 2 ^ 30, h.elements j = mindata) (last : h.elements (2 ^ 30 + 1) = y)
    (above : mindata < y) : deletemin fuel h = none := by
  have present : ¬ h.isempty := by
    simp only [Heap.isempty, beq_iff_eq]
    omega
  have overflows : deleteminLoop fuel { h with size := 2 ^ 30 } y 1 = none :=
    deleteminLoop_overflow (h := { h with size := 2 ^ 30 }) (k := 0) rfl (Nat.le_of_lt capacity)
      least above (Nat.zero_le 30)
  simp only [deletemin, if_neg present, size, Heap.read_eq (show 1 ≤ h.capacity by omega),
    Heap.read_eq (show 2 ^ 30 + 1 ≤ h.capacity by omega), last, Nat.add_sub_cancel, overflows,
    Option.bind_eq_bind, Option.bind_some, Option.bind_none]

/-- After the calls `deletemin` overflows, when there is room for more than `2 ^ 30` elements. -/
theorem run_crowding (int : maxelements + 1 ≤ intMax) (memory : Nat → α) (positive : 0 < fuel)
    (large : 2 ^ 30 < maxelements) (above : mindata < y) :
    ∃ s, run fuel maxelements memory (crowding above (2 ^ 30)) = some s ∧
      s.heap.size = 2 ^ 30 + 1 ∧ deletemin fuel s.heap = none := by
  obtain ⟨s, ran, filled⟩ : ∃ s, run fuel maxelements memory (filling mindata (2 ^ 30)) = some s ∧
      Filled mindata maxelements (2 ^ 30) s.heap :=
    run_filling int memory positive (Nat.le_of_lt large)
  have inserted := filled.insert large (le_of_lt above) positive
  rw [crowding, run_append, ran, Option.bind_some]
  simp only [perform, inserted, Option.bind_eq_bind, Option.bind_some]
  refine ⟨_, rfl, rfl, deletemin_overflow rfl (large.trans_eq filled.capacity.symm) ?_ ?_ above⟩
  · intro j high
    exact (Function.update_of_ne (by omega) _ _).trans (filled.least j high)
  · exact Function.update_self (2 ^ 30 + 1) y s.heap.elements

end Overflow

/-! ## The priority queue -/

/-- What the heap is for: every sequence of calls ends without an overflow or an access outside of
the array. After it the array is in heap order, its elements are those inserted less those returned,
and `deletemin` returns a minimum of a heap that is not empty. -/
def Serves (mindata : α) (maxelements : Nat) : Prop :=
  ∀ (memory : Nat → α) (calls : List (Call mindata)) (rounds : Nat),
    ∃ s, run (maxelements + 1 + rounds) maxelements memory calls = some s ∧
      Ordered s.heap.elements s.heap.size ∧ s.heap.size ≤ s.heap.capacity ∧
      s.heap.capacity = maxelements ∧ s.heap.contents + s.returned = s.inserted ∧
      (¬ s.heap.isempty → ∃ x h,
        deletemin (maxelements + 1 + rounds) s.heap = some (x, h) ∧ x ∈ s.heap.contents ∧
        (∀ y ∈ s.heap.contents, x ≤ y) ∧ s.heap.contents = x ::ₘ h.contents)

/-- A heap whose number of cells is an `int` and that serves has room for at most `2 ^ 30`
elements. -/
theorem Serves.short {y : α} {maxelements : Nat} (serves : Serves mindata maxelements)
    (above : mindata < y) (int : maxelements + 1 ≤ intMax) : maxelements ≤ 2 ^ 30 := by
  by_contra large
  obtain ⟨s, ran, size, overflows⟩ :=
    run_crowding int (fun _ => mindata) (show 0 < maxelements + 1 + 0 by omega)
      (Nat.not_le.mp large) above
  obtain ⟨s', ran', -, -, -, -, returns⟩ := serves (fun _ => mindata) (crowding above (2 ^ 30)) 0
  obtain rfl : s = s' := Option.some.inj (ran.symm.trans ran')
  have present : ¬ s.heap.isempty := by
    simp only [Heap.isempty, beq_iff_eq]
    omega
  obtain ⟨x, h, deleted, -⟩ := returns present
  rw [overflows] at deleted
  cases deleted

end CodeLearning.PriorityQueue.ArrayHeap
