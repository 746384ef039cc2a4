import CodeLearning.Lib.CInt
import Mathlib.Algebra.BigOperators.Group.Finset.Piecewise
import Mathlib.Algebra.Order.Group.Multiset
import Mathlib.Tactic.Abel

/-!
# The binomial queue

A node points to its first child and to its next sibling, and slot `i` of a queue holds a binomial
tree of order `i` or `NULL`. `merge` adds the sizes in binary with the trees as digits. It doubles
`j`, which is of type `int`, until it is greater than the sum of the sizes: this overflows when the
sum is at least `2 ^ 30`. An overflow, a pointer that is followed at `NULL`, an index outside of
`thetrees` and an index that was never set are all `none`. `maxtrees`, `capacity` and `infinity` are
constants that the program leaves to its headers.
-/

namespace CodeLearning.PriorityQueue.Binomial

/-- A pointer to `struct binnode`: `NULL`, or a node with its fields. -/
inductive Tree (α : Type) where
  /-- `NULL`. -/
  | null
  /-- A node. -/
  | node (element : α) (leftchild nextsibling : Tree α)
deriving DecidableEq

/-- `struct collection`. -/
structure Queue (α : Type) where
  /-- Number of elements. -/
  currentsize : Nat
  /-- The slots. -/
  thetrees : Nat → Tree α

open CInt Binomial.Tree

/-- `!!t`. -/
def flag {α : Type} : Tree α → Nat
  | null => 0
  | node _ _ _ => 1

variable {α : Type} [LinearOrder α]

/-- `combine_trees`; the call with the trees exchanged compares the other way and goes on. -/
def combineTrees : Tree α → Tree α → Option (Tree α)
  | node e1 c1 s1, node e2 c2 s2 =>
    if e2 < e1 then some (node e2 (node e1 c1 c2) s2) else some (node e1 (node e2 c2 c1) s1)
  | _, _ => none

/-- The `switch` of `merge`: slot `i` of both queues and the carry after it. -/
def switch (t1 t2 carry : Tree α) : Option (Tree α × Tree α × Tree α) :=
  match flag t1 + 2 * flag t2 + 4 * flag carry with
  | 2 => some (t2, null, carry)
  | 4 => some (carry, t2, null)
  | 3 => do
    let carry ← combineTrees t1 t2
    return (null, null, carry)
  | 5 => do
    let carry ← combineTrees t1 carry
    return (null, t2, carry)
  | 6 => do
    let carry ← combineTrees t2 carry
    return (t1, null, carry)
  | 7 => do
    let combined ← combineTrees t1 t2
    return (carry, null, combined)
  | _ => some (t1, t2, carry)

/-- The loop of `merge` from `i` on: the queues and the carry at its end. -/
def mergeLoop (maxtrees : Nat) (h1 h2 : Queue α) (carry : Tree α) (i j : Nat) :
    Option (Queue α × Queue α × Tree α) :=
  if j ≤ h1.currentsize then
    if i < maxtrees then do
      let (slot1, slot2, carry) ← switch (h1.thetrees i) (h2.thetrees i) carry
      let j ← checkedNat (j * 2)
      mergeLoop maxtrees { h1 with thetrees := Function.update h1.thetrees i slot1 }
        { h2 with thetrees := Function.update h2.thetrees i slot2 } carry (i + 1) j
    else
      none
  else
    some (h1, h2, carry)
termination_by maxtrees - i

/-- `merge`, which goes on when it would exceed the capacity: both queues and the last carry. -/
def merge (maxtrees : Nat) (h1 h2 : Queue α) : Option (Queue α × Queue α × Tree α) := do
  let currentsize ← checkedNat (h1.currentsize + h2.currentsize)
  mergeLoop maxtrees { h1 with currentsize := currentsize } h2 null 0 1

/-- The first loop of `deletemin`: `minitem`, and `mintree` once it is set, after `i` rounds. -/
def minLoop (infinity : α) (h : Queue α) : Nat → α × Option Nat
  | 0 => (infinity, none)
  | i + 1 =>
    let (minitem, mintree) := minLoop infinity h i
    match h.thetrees i with
    | null => (minitem, mintree)
    | node element _ _ =>
      if element < minitem then (element, some i) else (minitem, mintree)

/-- The second loop of `deletemin`: the children, from slot `j - 1` down. -/
def spreadLoop : Nat → (Nat → Tree α) → Tree α → Option (Nat → Tree α)
  | 0, trees, _ => some trees
  | _ + 1, _, null => none
  | j + 1, trees, node element leftchild nextsibling =>
    spreadLoop j (Function.update trees j (node element leftchild null)) nextsibling

/-- `initialize`. -/
def emptyQueue : Queue α := { currentsize := 0, thetrees := fun _ => null }

/-- `deletemin`: the item it returns and the queue after it. -/
def deletemin (maxtrees : Nat) (infinity minusInfinity : α) (h : Queue α) :
    Option (α × Queue α) :=
  if h.currentsize = 0 then some (minusInfinity, h)
  else
    match minLoop infinity h maxtrees with
    | (_, none) => none
    | (minitem, some mintree) =>
      match h.thetrees mintree with
      | null => none
      | node _ leftchild _ => do
        let power ← checkedNat (2 ^ mintree)
        let trees ← spreadLoop mintree emptyQueue.thetrees leftchild
        let deletedqueue : Queue α := { currentsize := power - 1, thetrees := trees }
        let rest : Queue α :=
          { currentsize := h.currentsize - (deletedqueue.currentsize + 1)
            thetrees := Function.update h.thetrees mintree null }
        let (merged, _, _) ← merge maxtrees rest deletedqueue
        return (minitem, merged)

/-! ## Binomial trees -/

/-- The elements of a node, its descendants and its later siblings. -/
def Tree.elements : Tree α → Multiset α
  | null => 0
  | node element leftchild nextsibling =>
    element ::ₘ (leftchild.elements + nextsibling.elements)

/-- Sibling trees of the orders `k - 1` down to 0, each in heap order. -/
def Forest : Nat → Tree α → Prop
  | 0, t => t = null
  | _ + 1, null => False
  | k + 1, node element leftchild nextsibling =>
    (∀ y ∈ leftchild.elements, element ≤ y) ∧ Forest k leftchild ∧ Forest k nextsibling

/-- A heap-ordered binomial tree of order `k`: its children are the orders below `k`. -/
def BinomialTree (k : Nat) : Tree α → Prop
  | null => False
  | node element leftchild nextsibling =>
    (∀ y ∈ leftchild.elements, element ≤ y) ∧ Forest k leftchild ∧ nextsibling = null

/-- A slot or a carry of order `k`: a binomial tree when the bit is set, else `NULL`. -/
def Slot (k : Nat) (bit : Bool) (t : Tree α) : Prop :=
  match bit with
  | true => BinomialTree k t
  | false => t = null

/-- The slots hold the binary digits of the size, which is within the capacity. -/
structure Queue.Inv (maxtrees capacity : Nat) (h : Queue α) : Prop where
  /-- The size is within the capacity. -/
  fits : h.currentsize ≤ capacity
  /-- A slot is occupied exactly when its bit is set. -/
  slots : ∀ i < maxtrees, Slot i (h.currentsize.testBit i) (h.thetrees i)

/-- The elements of the trees of an array. -/
def held (maxtrees : Nat) (trees : Nat → Tree α) : Multiset α :=
  ∑ i ∈ Finset.range maxtrees, (trees i).elements

/-- The elements of a queue. -/
def Queue.elements (maxtrees : Nat) (h : Queue α) : Multiset α := held maxtrees h.thetrees

/-! ## One round of `merge` -/

section Round

variable {t t1 t2 carry : Tree α} {k i a b total : Nat} {x y c : Bool}

/-- Two trees of one order combine to a tree of the next. -/
theorem combineTrees_spec (tree1 : BinomialTree k t1) (tree2 : BinomialTree k t2) :
    ∃ t, combineTrees t1 t2 = some t ∧ BinomialTree (k + 1) t ∧
      t.elements = t1.elements + t2.elements := by
  -- The root that is not above the other takes the other tree as its first child.
  have linked : ∀ {e1 e2 : α} {c1 c2 : Tree α}, e1 ≤ e2 → BinomialTree k (node e1 c1 null) →
      BinomialTree k (node e2 c2 null) → BinomialTree (k + 1) (node e1 (node e2 c2 c1) null) := by
    intro e1 e2 c1 c2 least ⟨bound1, forest1, _⟩ ⟨bound2, forest2, _⟩
    refine ⟨fun y mem => ?_, ⟨bound2, forest2, forest1⟩, rfl⟩
    simp only [elements, Multiset.mem_cons, Multiset.mem_add] at mem
    rcases mem with rfl | inside | inside
    · exact least
    · exact le_trans least (bound2 y inside)
    · exact bound1 y inside
  cases t1 with
  | null => exact tree1.elim
  | node e1 c1 s1 =>
    cases t2 with
    | null => exact tree2.elim
    | node e2 c2 s2 =>
      obtain ⟨-, -, rfl⟩ := id tree1
      obtain ⟨-, -, rfl⟩ := id tree2
      by_cases less : e2 < e1
      · refine ⟨_, if_pos less, linked (le_of_lt less) tree2 tree1, ?_⟩
        simp only [elements, add_zero, Multiset.cons_add, Multiset.add_cons]
      · refine ⟨_, if_neg less, linked (not_lt.mp less) tree1 tree2, ?_⟩
        simp only [elements, add_zero, Multiset.cons_add, Multiset.add_cons]
        rw [Multiset.cons_swap, add_comm]

omit [LinearOrder α] in
/-- `NULL` is no tree. -/
@[simp] theorem flag_null : flag (null : Tree α) = 0 := rfl

/-- An occupied slot holds a node. -/
theorem BinomialTree.flag_eq (tree : BinomialTree k t) : flag t = 1 := by
  cases t with
  | null => exact tree.elim
  | node _ _ _ => rfl

/-- The `switch` adds one digit: the slot of the first queue gets the sum and the carry goes on. -/
theorem switch_spec (slot1 : Slot k x t1) (slot2 : Slot k y t2) (slotC : Slot k c carry) :
    ∃ u carry', switch t1 t2 carry = some (u, null, carry') ∧ Slot k (x ^^ (y ^^ c)) u ∧
      Slot (k + 1) (Bool.atLeastTwo x y c) carry' ∧
      u.elements + carry'.elements = t1.elements + t2.elements + carry.elements := by
  cases x <;> cases y <;> cases c <;> simp only [Slot] at slot1 slot2 slotC
  · subst slot1 slot2 slotC
    exact ⟨null, null, rfl, rfl, rfl, rfl⟩
  · subst slot1 slot2
    refine ⟨carry, null, ?_, slotC, rfl, ?_⟩
    · simp [switch, slotC.flag_eq]
    · simp [elements]
  · subst slot1 slotC
    refine ⟨t2, null, ?_, slot2, rfl, ?_⟩
    · simp [switch, slot2.flag_eq]
    · simp [elements]
  · subst slot1
    obtain ⟨t, combined, tree, same⟩ := combineTrees_spec slot2 slotC
    refine ⟨null, t, ?_, rfl, tree, ?_⟩
    · simp [switch, slot2.flag_eq, slotC.flag_eq, combined]
    · simp [elements, same]
  · subst slot2 slotC
    refine ⟨t1, null, ?_, slot1, rfl, ?_⟩
    · simp [switch, slot1.flag_eq]
    · simp [elements]
  · subst slot2
    obtain ⟨t, combined, tree, same⟩ := combineTrees_spec slot1 slotC
    refine ⟨null, t, ?_, rfl, tree, ?_⟩
    · simp [switch, slot1.flag_eq, slotC.flag_eq, combined]
    · simp [elements, same]
  · subst slotC
    obtain ⟨t, combined, tree, same⟩ := combineTrees_spec slot1 slot2
    refine ⟨null, t, ?_, rfl, tree, ?_⟩
    · simp [switch, slot1.flag_eq, slot2.flag_eq, combined]
    · simp [elements, same]
  · obtain ⟨t, combined, tree, same⟩ := combineTrees_spec slot1 slot2
    refine ⟨carry, t, ?_, slotC, tree, ?_⟩
    · simp [switch, slot1.flag_eq, slot2.flag_eq, slotC.flag_eq, combined]
    · rw [same, add_comm]

/-- One digit of a sum of two numbers, with the carry into it and out of it. -/
theorem digit_step (upper : total / 2 ^ i = a / 2 ^ i + b / 2 ^ i + c.toNat) :
    total.testBit i = (a.testBit i ^^ (b.testBit i ^^ c)) ∧
      total / 2 ^ (i + 1) = a / 2 ^ (i + 1) + b / 2 ^ (i + 1) +
        (Bool.atLeastTwo (a.testBit i) (b.testBit i) c).toNat := by
  simp only [Nat.testBit_eq_decide_div_mod_eq, Nat.pow_succ, ← Nat.div_div_eq_div_mul, upper]
  generalize a / 2 ^ i = a'
  generalize b / 2 ^ i = b'
  rcases Nat.mod_two_eq_zero_or_one a' with evenA | oddA <;>
    rcases Nat.mod_two_eq_zero_or_one b' with evenB | oddB <;>
    cases c <;> simp_all <;> omega

end Round

/-! ## The loop of `merge` -/

section Loop

variable {h1 h2 : Queue α} {carry t u : Tree α} {maxtrees capacity a b i k : Nat} {c : Bool}

omit [LinearOrder α] in
/-- A slot that is written exchanges its elements. -/
theorem held_update (trees : Nat → Tree α) (inside : i < maxtrees) (t : Tree α) :
    held maxtrees (Function.update trees i t) + (trees i).elements =
      held maxtrees trees + t.elements := by
  have others : ∀ t : Tree α, held maxtrees (Function.update trees i t) =
      t.elements + ∑ k ∈ Finset.range maxtrees \ {i}, (trees k).elements := by
    intro t
    rw [← Finset.sum_update_of_mem (Finset.mem_range.mpr inside)]
    refine Finset.sum_congr rfl fun k _ => ?_
    exact Function.apply_update (fun _ => Tree.elements) trees i t k
  have before := others (trees i)
  rw [Function.update_eq_self] at before
  rw [others t, before]
  abel

omit [LinearOrder α] in
/-- Empty slots hold nothing. -/
theorem held_null {trees : Nat → Tree α} (empty : ∀ k < maxtrees, trees k = null) :
    held maxtrees trees = 0 := by
  refine Finset.sum_eq_zero fun k mem => ?_
  rw [empty k (Finset.mem_range.mp mem), Tree.elements]

/-- A round of `merge`: the slots before `i` hold the digits of the sum, those from `i` on are as
they were, and the carry is the digit that goes into slot `i`. -/
structure Adding (maxtrees a b : Nat) (h1 h2 : Queue α) (carry : Tree α) (i : Nat) (c : Bool) :
    Prop where
  /-- The sum of the sizes has its digits in the slots. -/
  fits : h1.currentsize < 2 ^ maxtrees
  /-- The digits from `i` on are those of the sizes with the carry. -/
  upper : h1.currentsize / 2 ^ i = a / 2 ^ i + b / 2 ^ i + c.toNat
  /-- The slots of the first queue before `i`. -/
  sum : ∀ k < i, Slot k (h1.currentsize.testBit k) (h1.thetrees k)
  /-- The slots of the second queue before `i`. -/
  moved : ∀ k < i, h2.thetrees k = null
  /-- The slots of the first queue from `i` on. -/
  first : ∀ k, i ≤ k → k < maxtrees → Slot k (a.testBit k) (h1.thetrees k)
  /-- The slots of the second queue from `i` on. -/
  second : ∀ k, i ≤ k → k < maxtrees → Slot k (b.testBit k) (h2.thetrees k)
  /-- The carry. -/
  carried : Slot i c carry

/-- A round goes on with the next slot and keeps the elements. -/
theorem Adding.round (adding : Adding maxtrees a b h1 h2 carry i c) (inside : i < maxtrees) :
    ∃ slot carry' c', switch (h1.thetrees i) (h2.thetrees i) carry = some (slot, null, carry') ∧
      Adding maxtrees a b { h1 with thetrees := Function.update h1.thetrees i slot }
        { h2 with thetrees := Function.update h2.thetrees i null } carry' (i + 1) c' ∧
      held maxtrees (Function.update h1.thetrees i slot) +
          held maxtrees (Function.update h2.thetrees i null) + carry'.elements =
        held maxtrees h1.thetrees + held maxtrees h2.thetrees + carry.elements := by
  obtain ⟨slot, carry', switched, digit, next, same⟩ :=
    switch_spec (adding.first i (Nat.le_refl i) inside) (adding.second i (Nat.le_refl i) inside)
      adding.carried
  obtain ⟨bit, upper⟩ := digit_step adding.upper
  refine ⟨slot, carry', _, switched, ⟨adding.fits, upper, fun k below => ?_, fun k below => ?_,
    fun k above high => ?_, fun k above high => ?_, next⟩, ?_⟩
  · by_cases here : k = i
    · subst here
      simp only [Function.update_self, bit]
      exact digit
    · simp only [Function.update_of_ne here]
      exact adding.sum k (by omega)
  · by_cases here : k = i
    · simp only [here, Function.update_self]
    · simp only [Function.update_of_ne here]
      exact adding.moved k (by omega)
  · simp only [Function.update_of_ne (show k ≠ i by omega)]
    exact adding.first k (by omega) high
  · simp only [Function.update_of_ne (show k ≠ i by omega)]
    exact adding.second k (by omega) high
  · have slot1 := held_update h1.thetrees inside slot
    have slot2 := held_update h2.thetrees inside null
    simp only [Tree.elements, add_zero] at slot2
    rw [← slot2]
    refine add_right_cancel (b := (h1.thetrees i).elements) ?_
    calc _ = held maxtrees (Function.update h1.thetrees i slot) + (h1.thetrees i).elements +
          held maxtrees (Function.update h2.thetrees i null) + carry'.elements := by
            abel
      _ = held maxtrees h1.thetrees + held maxtrees (Function.update h2.thetrees i null) +
          (slot.elements + carry'.elements) := by
            rw [slot1]
            abel
      _ = _ := by
            rw [same]
            abel

/-- Where the loop stops, there is no carry and the slots hold the sum. -/
theorem Adding.ends (adding : Adding maxtrees a b h1 h2 carry i c)
    (top : h1.currentsize < 2 ^ i) :
    mergeLoop maxtrees h1 h2 carry i (2 ^ i) = some (h1, h2, null) ∧
      (∀ k < maxtrees, Slot k (h1.currentsize.testBit k) (h1.thetrees k)) ∧
      h1.elements maxtrees =
        held maxtrees h1.thetrees + held maxtrees h2.thetrees + carry.elements := by
  have upper := adding.upper
  rw [Nat.div_eq_of_lt top] at upper
  obtain ⟨⟨noneA, noneB⟩, noneC⟩ : (a / 2 ^ i = 0 ∧ b / 2 ^ i = 0) ∧ c.toNat = 0 := by
    rwa [eq_comm, Nat.add_eq_zero_iff, Nat.add_eq_zero_iff] at upper
  have lowA : a < 2 ^ i := (Nat.div_eq_zero_iff_lt (Nat.two_pow_pos i)).mp noneA
  have lowB : b < 2 ^ i := (Nat.div_eq_zero_iff_lt (Nat.two_pow_pos i)).mp noneB
  have high : ∀ {n k : Nat}, n < 2 ^ i → i ≤ k → n.testBit k = false := fun low above =>
    Nat.testBit_lt_two_pow (Nat.lt_of_lt_of_le low (Nat.pow_le_pow_right (by decide) above))
  obtain rfl : carry = null := by
    have carried := adding.carried
    rw [Bool.toNat_eq_zero.mp noneC] at carried
    exact carried
  refine ⟨?_, fun k inside => ?_, ?_⟩
  · rw [mergeLoop, if_neg (Nat.not_le.mpr top)]
  · by_cases below : k < i
    · exact adding.sum k below
    · have slot := adding.first k (by omega) inside
      rw [high lowA (by omega)] at slot
      rw [high top (by omega)]
      exact slot
  · have empty : held maxtrees h2.thetrees = 0 := by
      refine held_null fun k inside => ?_
      by_cases below : k < i
      · exact adding.moved k below
      · have slot := adding.second k (by omega) inside
        rw [high lowB (by omega)] at slot
        exact slot
    rw [empty, Tree.elements, add_zero, add_zero]
    rfl

/-- The loop runs within `thetrees` and stores every carry, when the sum is less than `2 ^ 30`. -/
theorem Adding.mergeLoop (adding : Adding maxtrees a b h1 h2 carry i c) (inside : i ≤ maxtrees)
    (small : h1.currentsize < 2 ^ 30) :
    ∃ h1' h2', mergeLoop maxtrees h1 h2 carry i (2 ^ i) = some (h1', h2', null) ∧
      h1'.currentsize = h1.currentsize ∧
      (∀ k < maxtrees, Slot k (h1.currentsize.testBit k) (h1'.thetrees k)) ∧
      h1'.elements maxtrees =
        held maxtrees h1.thetrees + held maxtrees h2.thetrees + carry.elements := by
  obtain ⟨n, rest⟩ : ∃ n, maxtrees = i + n := Nat.exists_eq_add_of_le inside
  induction n generalizing h1 h2 carry i c with
  | zero =>
    have top : h1.currentsize < 2 ^ i := by
      have fits := adding.fits
      rwa [rest] at fits
    obtain ⟨stopped, slots, same⟩ := adding.ends top
    exact ⟨h1, h2, stopped, rfl, slots, same⟩
  | succ n more =>
    by_cases goes : 2 ^ i ≤ h1.currentsize
    · obtain ⟨slot, carry', c', switched, adding', same⟩ := adding.round (by omega)
      obtain ⟨h1', h2', looped, size, slots, held'⟩ := more adding' (by omega) small (by omega)
      refine ⟨h1', h2', ?_, size, slots, held'.trans same⟩
      have doubled : checkedNat (2 ^ i * 2) = some (2 ^ (i + 1)) := by
        rw [Nat.pow_succ]
        refine checkedNat_eq ?_
        unfold intMax
        omega
      rw [Binomial.mergeLoop, if_pos goes, if_pos (by omega), switched]
      simpa only [Option.bind_eq_bind, Option.bind_some, doubled] using looped
    · obtain ⟨stopped, slots, same⟩ := adding.ends (Nat.not_le.mp goes)
      exact ⟨h1, h2, stopped, rfl, slots, same⟩

/-- When the sum is at least `2 ^ 30`, the loop overflows at the latest when `j` is `2 ^ 30`. -/
theorem mergeLoop_overflow (large : 2 ^ 30 ≤ h1.currentsize) (below : i ≤ 30) :
    mergeLoop maxtrees h1 h2 carry i (2 ^ i) = none := by
  -- Every round before ends with the next power of two.
  induction n : 30 - i generalizing h1 h2 carry i with
  | zero =>
    obtain rfl : i = 30 := by omega
    have overflows : checkedNat (2 ^ 30 * 2) = none := checkedNat_eq_none (by decide)
    rw [mergeLoop, if_pos large]
    simp only [overflows, Option.bind_eq_bind, Option.bind_none, Option.bind_fun_none, ite_self]
  | succ n more =>
    have less : 2 ^ (i + 1) ≤ 2 ^ 30 := Nat.pow_le_pow_right (by decide) (by omega)
    have goes : 2 ^ i ≤ h1.currentsize :=
      Nat.le_trans (Nat.pow_le_pow_right (by decide) below) large
    have doubled : checkedNat (2 ^ i * 2) = some (2 ^ (i + 1)) :=
      checkedNat_eq (Nat.le_trans less (by decide))
    have later : ∀ (s1 s2 carry' : Tree α),
        mergeLoop maxtrees { h1 with thetrees := Function.update h1.thetrees i s1 }
          { h2 with thetrees := Function.update h2.thetrees i s2 } carry' (i + 1) (2 ^ (i + 1)) =
            none := fun s1 s2 carry' => more large (by omega) (by omega)
    rw [mergeLoop, if_pos goes]
    simp only [doubled, Option.bind_eq_bind, Option.bind_some, later, Option.bind_fun_none,
      ite_self]

/-- So `merge` has no result then. -/
theorem merge_overflow (large : 2 ^ 30 ≤ h1.currentsize + h2.currentsize) :
    merge maxtrees h1 h2 = none := by
  unfold merge
  by_cases int : h1.currentsize + h2.currentsize ≤ intMax
  · rw [checkedNat_eq int, Option.bind_eq_bind, Option.bind_some]
    exact mergeLoop_overflow (i := 0) large (Nat.zero_le 30)
  · rw [checkedNat_eq_none (Nat.not_le.mp int), Option.bind_eq_bind, Option.bind_none]

/-- `merge` of two queues whose sizes fit: the first holds the elements of both, and no carry is
left. -/
theorem merge_spec (room : capacity < 2 ^ maxtrees) (inv1 : h1.Inv maxtrees capacity)
    (inv2 : h2.Inv maxtrees capacity) (fits : h1.currentsize + h2.currentsize ≤ capacity)
    (small : h1.currentsize + h2.currentsize < 2 ^ 30) :
    ∃ h1' h2', merge maxtrees h1 h2 = some (h1', h2', null) ∧ h1'.Inv maxtrees capacity ∧
      h1'.currentsize = h1.currentsize + h2.currentsize ∧
      h1'.elements maxtrees = h1.elements maxtrees + h2.elements maxtrees := by
  have adding : Adding maxtrees h1.currentsize h2.currentsize
      { h1 with currentsize := h1.currentsize + h2.currentsize } h2 null 0 false := by
    refine ⟨Nat.lt_of_le_of_lt fits room, by simp, fun k below => ?_, fun k below => ?_,
      fun k _ => inv1.slots k, fun k _ => inv2.slots k, rfl⟩
    · omega
    · omega
  obtain ⟨h1', h2', looped, size, slots, same⟩ := adding.mergeLoop (Nat.zero_le maxtrees) small
  have int : h1.currentsize + h2.currentsize ≤ intMax :=
    Nat.le_trans (Nat.le_of_lt small) (by decide)
  refine ⟨h1', h2', ?_, ⟨size.trans_le fits, ?_⟩, size, ?_⟩
  · rw [merge, checkedNat_eq int, Option.bind_eq_bind, Option.bind_some]
    exact looped
  · rw [size]
    exact slots
  · rw [same, Tree.elements, add_zero]
    rfl

end Loop

/-! ## `deletemin` -/

section Deletemin

variable {h : Queue α} {t : Tree α} {infinity element : α} {maxtrees capacity n k : Nat}

/-- A number without one of its binary digits. -/
theorem testBit_sub_two_pow {n k : Nat} (set : n.testBit k = true) (j : Nat) :
    (n - 2 ^ k).testBit j = (decide (j ≠ k) && n.testBit j) := by
  induction k generalizing n j with
  | zero =>
    have odd : n % 2 = 1 := by simpa using set
    cases j with
    | zero =>
      simp
      omega
    | succ j =>
      have half : (n - 1) / 2 = n / 2 := by omega
      simp [Nat.testBit_succ, half]
  | succ k below =>
    rw [Nat.testBit_succ] at set
    cases j with
    | zero =>
      have bound := Nat.ge_two_pow_of_testBit set
      simp [Nat.pow_succ]
      omega
    | succ j =>
      have half : (n - 2 ^ (k + 1)) / 2 = n / 2 - 2 ^ k := by
        rw [Nat.pow_succ]
        omega
      rw [Nat.testBit_succ, Nat.testBit_succ, half, below set]
      simp

/-- `minitem` is not above a root that the first loop of `deletemin` has passed. -/
theorem minLoop_least (infinity : α) {leftchild nextsibling : Tree α} (passed : k < n)
    (occupied : h.thetrees k = node element leftchild nextsibling) :
    (minLoop infinity h n).1 ≤ element := by
  induction n with
  | zero => omega
  | succ n before =>
    simp only [minLoop]
    by_cases last : k = n
    · subst last
      rw [occupied]
      by_cases less : element < (minLoop infinity h k).1
      · simp only [if_pos less, le_refl]
      · simpa only [if_neg less] using not_lt.mp less
    · have least := before (by omega)
      cases h.thetrees n with
      | null => exact least
      | node other _ _ =>
        by_cases less : other < (minLoop infinity h n).1
        · simp only [if_pos less]
          exact le_trans (le_of_lt less) least
        · simp only [if_neg less, least]

/-- `mintree` is the slot that `minitem` is from. -/
theorem minLoop_found (infinity : α) (h : Queue α) (n : Nat) :
    ((minLoop infinity h n).2 = none ∧ (minLoop infinity h n).1 = infinity) ∨
      ∃ k < n, (minLoop infinity h n).2 = some k ∧
        ∃ leftchild nextsibling,
          h.thetrees k = node (minLoop infinity h n).1 leftchild nextsibling := by
  induction n with
  | zero => exact .inl ⟨rfl, rfl⟩
  | succ n before =>
    have kept : ((minLoop infinity h n).2 = none ∧ (minLoop infinity h n).1 = infinity) ∨
        ∃ k < n + 1, (minLoop infinity h n).2 = some k ∧
          ∃ leftchild nextsibling,
            h.thetrees k = node (minLoop infinity h n).1 leftchild nextsibling := by
      rcases before with unset | ⟨k, passed, found⟩
      · exact .inl unset
      · exact .inr ⟨k, by omega, found⟩
    simp only [minLoop]
    cases slot : h.thetrees n with
    | null => exact kept
    | node other leftchild nextsibling =>
      by_cases less : other < (minLoop infinity h n).1
      · simp only [if_pos less]
        exact .inr ⟨n, by omega, rfl, leftchild, nextsibling, slot⟩
      · simpa only [if_neg less] using kept

/-- The children of a tree are the slots of a queue. -/
theorem spreadLoop_spec (trees : Nat → Tree α) (forest : Forest k t)
    (empty : ∀ j < k, trees j = null) (inside : k ≤ maxtrees) :
    ∃ trees', spreadLoop k trees t = some trees' ∧ (∀ j < k, BinomialTree j (trees' j)) ∧
      (∀ j ≥ k, trees' j = trees j) ∧
      held maxtrees trees' = held maxtrees trees + t.elements := by
  induction k generalizing trees t with
  | zero =>
    refine ⟨trees, rfl, fun j below => ?_, fun j _ => rfl, ?_⟩
    · omega
    · rw [show t = null from forest, Tree.elements, add_zero]
  | succ k next =>
    cases t with
    | null => exact forest.elim
    | node element leftchild nextsibling =>
      obtain ⟨bound, children, siblings⟩ := forest
      have still : ∀ j < k, Function.update trees k (node element leftchild null) j = null := by
        intro j below
        rw [Function.update_of_ne (by omega)]
        exact empty j (by omega)
      obtain ⟨trees', spread, filled, rest, same⟩ := next _ siblings still (by omega)
      refine ⟨trees', spread, fun j below => ?_, fun j above => ?_, ?_⟩
      · by_cases here : j = k
        · rw [here, rest k (Nat.le_refl k), Function.update_self]
          exact ⟨bound, children, rfl⟩
        · exact filled j (by omega)
      · rw [rest j (by omega), Function.update_of_ne (by omega)]
      · have written := held_update trees (show k < maxtrees by omega) (node element leftchild null)
        rw [empty k (by omega)] at written
        simp only [Tree.elements, add_zero] at written
        rw [same, written]
        simp only [Tree.elements, Multiset.cons_add, Multiset.add_cons, add_assoc]

omit [LinearOrder α] in
/-- An element of a queue is one of a slot. -/
theorem mem_elements {x : α} :
    x ∈ h.elements maxtrees ↔ ∃ k < maxtrees, x ∈ (h.thetrees k).elements := by
  simp only [Queue.elements, held, Multiset.mem_sum, Finset.mem_range]

/-- The first loop finds a tree with a minimum at its root. -/
theorem Queue.Inv.minLoop (inv : h.Inv maxtrees capacity) (room : capacity < 2 ^ maxtrees)
    (present : h.currentsize ≠ 0) (finite : ∀ x ∈ h.elements maxtrees, x < infinity) :
    ∃ minitem k leftchild, minLoop infinity h maxtrees = (minitem, some k) ∧ k < maxtrees ∧
      h.thetrees k = node minitem leftchild null ∧ Forest k leftchild ∧
      h.currentsize.testBit k = true ∧ ∀ y ∈ h.elements maxtrees, minitem ≤ y := by
  have slotOf : ∀ k < maxtrees, ∀ element leftchild nextsibling,
      h.thetrees k = node element leftchild nextsibling →
        h.currentsize.testBit k = true ∧ BinomialTree k (node element leftchild nextsibling) := by
    intro k inside element leftchild nextsibling occupied
    have slot := inv.slots k inside
    rw [occupied] at slot
    cases bit : h.currentsize.testBit k with
    | false =>
      rw [bit] at slot
      cases slot
    | true =>
      rw [bit] at slot
      exact ⟨rfl, slot⟩
  have least : ∀ y ∈ h.elements maxtrees, (Binomial.minLoop infinity h maxtrees).1 ≤ y := by
    intro y mem
    obtain ⟨k, inside, inTree⟩ := mem_elements.mp mem
    cases occupied : h.thetrees k with
    | null =>
      rw [occupied] at inTree
      exact absurd inTree (Multiset.notMem_zero y)
    | node element leftchild nextsibling =>
      have below := minLoop_least infinity inside occupied
      obtain ⟨-, bound, -, rfl⟩ := slotOf k inside _ _ _ occupied
      rw [occupied] at inTree
      simp only [Tree.elements, add_zero, Multiset.mem_cons] at inTree
      rcases inTree with rfl | inTree
      · exact below
      · exact le_trans below (bound y inTree)
  rcases minLoop_found infinity h maxtrees with
    ⟨-, unset⟩ | ⟨k, inside, found, leftchild, nextsibling, occupied⟩
  · -- The queue is not empty, so one of its digits is set and its root is below infinity.
    obtain ⟨k, bit⟩ := Nat.exists_testBit_of_ne_zero present
    have inside : k < maxtrees := by
      by_contra above
      have small : h.currentsize < 2 ^ k :=
        Nat.lt_of_le_of_lt inv.fits
          (Nat.lt_of_lt_of_le room (Nat.pow_le_pow_right (by decide) (by omega)))
      rw [Nat.testBit_lt_two_pow small] at bit
      cases bit
    have slot := inv.slots k inside
    rw [bit] at slot
    cases occupied : h.thetrees k with
    | null =>
      rw [occupied] at slot
      exact slot.elim
    | node element leftchild nextsibling =>
      have mem : element ∈ h.elements maxtrees := by
        refine mem_elements.mpr ⟨k, inside, ?_⟩
        rw [occupied, Tree.elements]
        exact Multiset.mem_cons_self element _
      have bound := least element mem
      rw [unset] at bound
      exact absurd (finite element mem) (not_lt.mpr bound)
  · obtain ⟨bit, -, forest, rfl⟩ := slotOf k inside _ _ _ occupied
    refine ⟨_, k, leftchild, ?_, inside, occupied, forest, bit, least⟩
    rw [← found]

/-- `deletemin` of a queue that is not empty and has at most `2 ^ 30` elements returns a minimum and
leaves the rest. -/
theorem deletemin_spec (minusInfinity : α) (room : capacity < 2 ^ maxtrees)
    (inv : h.Inv maxtrees capacity) (small : h.currentsize ≤ 2 ^ 30) (present : h.currentsize ≠ 0)
    (finite : ∀ x ∈ h.elements maxtrees, x < infinity) :
    ∃ minitem h', deletemin maxtrees infinity minusInfinity h = some (minitem, h') ∧
      h'.Inv maxtrees capacity ∧ h'.currentsize + 1 = h.currentsize ∧
      (∀ y ∈ h.elements maxtrees, minitem ≤ y) ∧
      h.elements maxtrees = minitem ::ₘ h'.elements maxtrees := by
  obtain ⟨minitem, k, leftchild, found, inside, occupied, forest, bit, least⟩ :=
    inv.minLoop room present finite
  obtain ⟨trees, spread, filled, rest, same⟩ :=
    spreadLoop_spec (emptyQueue : Queue α).thetrees forest (fun _ _ => rfl) (Nat.le_of_lt inside)
  have bound : 2 ^ k ≤ h.currentsize := Nat.ge_two_pow_of_testBit bit
  have positive := Nat.two_pow_pos k
  have fits := inv.fits
  have invRest : Queue.Inv maxtrees capacity
      { currentsize := h.currentsize - (2 ^ k - 1 + 1)
        thetrees := Function.update h.thetrees k null } := by
    refine ⟨Nat.le_trans (Nat.sub_le _ _) fits, fun j insideJ => ?_⟩
    simp only [Nat.sub_add_cancel positive, testBit_sub_two_pow bit]
    by_cases here : j = k
    · simp [here, Slot]
    · simpa [here] using inv.slots j insideJ
  have invDeleted : Queue.Inv maxtrees capacity
      { currentsize := 2 ^ k - 1, thetrees := trees } := by
    refine ⟨show 2 ^ k - 1 ≤ capacity by omega, fun j _ => ?_⟩
    simp only [Nat.testBit_two_pow_sub_one]
    by_cases below : j < k
    · simpa [below, Slot] using filled j below
    · simpa [below, Slot, emptyQueue] using rest j (Nat.not_lt.mp below)
  have power : checkedNat (2 ^ k) = some (2 ^ k) :=
    checkedNat_eq (Nat.le_trans (Nat.le_trans bound small) (by decide))
  obtain ⟨h', _, merged, inv', size, held'⟩ := merge_spec room invRest invDeleted
    (show h.currentsize - (2 ^ k - 1 + 1) + (2 ^ k - 1) ≤ capacity by omega)
    (show h.currentsize - (2 ^ k - 1 + 1) + (2 ^ k - 1) < 2 ^ 30 by omega)
  refine ⟨minitem, h', ?_, inv', ?_, least, ?_⟩
  · simp only [deletemin, if_neg present, found, occupied, power, spread, Option.bind_eq_bind,
      Option.bind_some, merged]
    rfl
  · simp only at size
    omega
  · have removed := held_update h.thetrees inside null
    rw [occupied] at removed
    simp only [Tree.elements, add_zero, Multiset.add_cons] at removed
    have none : held maxtrees (emptyQueue : Queue α).thetrees = 0 := held_null fun _ _ => rfl
    rw [held']
    simp only [Queue.elements, same, none, zero_add, removed]

/-- With more than `2 ^ 30` elements `deletemin` overflows in its `merge`. -/
theorem deletemin_overflow (minusInfinity : α) (room : capacity < 2 ^ maxtrees)
    (inv : h.Inv maxtrees capacity) (large : 2 ^ 30 < h.currentsize)
    (finite : ∀ x ∈ h.elements maxtrees, x < infinity) :
    deletemin maxtrees infinity minusInfinity h = none := by
  have present : h.currentsize ≠ 0 := by omega
  obtain ⟨minitem, k, leftchild, found, inside, occupied, forest, bit, least⟩ :=
    inv.minLoop room present finite
  have bound : 2 ^ k ≤ h.currentsize := Nat.ge_two_pow_of_testBit bit
  have positive := Nat.two_pow_pos k
  have fails : ∀ trees : Nat → Tree α, merge maxtrees
      { currentsize := h.currentsize - (2 ^ k - 1 + 1)
        thetrees := Function.update h.thetrees k null }
      { currentsize := 2 ^ k - 1, thetrees := trees } = none := fun trees =>
    merge_overflow (show 2 ^ 30 ≤ h.currentsize - (2 ^ k - 1 + 1) + (2 ^ k - 1) by omega)
  simp only [deletemin, if_neg present, found, occupied, Option.bind_eq_bind]
  by_cases power : 2 ^ k ≤ intMax
  · simp only [checkedNat_eq power, Option.bind_some, fails, Option.bind_none,
      Option.bind_fun_none]
  · simp only [checkedNat_eq_none (Nat.not_le.mp power), Option.bind_none]

end Deletemin

/-! ## The priority queue -/

/-- A queue in which the slots hold the binary digits of the size. -/
abbrev BinQueue (α : Type) [LinearOrder α] (maxtrees capacity : Nat) :=
  { h : Queue α // h.Inv maxtrees capacity }

section Queues

variable {maxtrees capacity : Nat}

/-- What `merge` is for: it stores every carry and leaves a queue with the elements of both. -/
def Merges (h1 h2 : BinQueue α maxtrees capacity) : Prop :=
  ∃ (h1' : BinQueue α maxtrees capacity) (h2' : Queue α),
    merge maxtrees h1.val h2.val = some (h1'.val, h2', null) ∧
    h1'.val.currentsize = h1.val.currentsize + h2.val.currentsize ∧
    h1'.val.elements maxtrees = h1.val.elements maxtrees + h2.val.elements maxtrees

/-- What `deletemin` is for: it returns the minimum and leaves a queue with the rest. -/
def Deletes (infinity minusInfinity : α) (h : BinQueue α maxtrees capacity) : Prop :=
  ∃ (minitem : α) (h' : BinQueue α maxtrees capacity),
    deletemin maxtrees infinity minusInfinity h.val = some (minitem, h'.val) ∧
    h'.val.currentsize + 1 = h.val.currentsize ∧
    (∀ y ∈ h.val.elements maxtrees, minitem ≤ y) ∧
    h.val.elements maxtrees = minitem ::ₘ h'.val.elements maxtrees

/-- For queues whose sizes are within the capacity, `merge` does what it is for exactly when their
sum is less than `2 ^ 30`; `deletemin` of a queue that is not empty does exactly when it has at most
`2 ^ 30` elements. -/
theorem binomial_priority_queue_iff (infinity minusInfinity : α) (room : capacity < 2 ^ maxtrees) :
    (∀ h1 h2 : BinQueue α maxtrees capacity,
      h1.val.currentsize + h2.val.currentsize ≤ capacity →
      (Merges h1 h2 ↔ h1.val.currentsize + h2.val.currentsize < 2 ^ 30)) ∧
    ∀ h : BinQueue α maxtrees capacity, h.val.currentsize ≠ 0 →
      (∀ x ∈ h.val.elements maxtrees, x < infinity) →
      (Deletes infinity minusInfinity h ↔ h.val.currentsize ≤ 2 ^ 30) := by
  refine ⟨fun h1 h2 fits => ⟨fun merges => ?_, fun small => ?_⟩,
    fun h present finite => ⟨fun deletes => ?_, fun small => ?_⟩⟩
  · by_contra large
    obtain ⟨h1', h2', merged, -⟩ := merges
    rw [merge_overflow (Nat.not_lt.mp large)] at merged
    cases merged
  · obtain ⟨h1', h2', merged, inv, size, same⟩ :=
      merge_spec room h1.property h2.property fits small
    exact ⟨⟨h1', inv⟩, h2', merged, size, same⟩
  · by_contra large
    obtain ⟨minitem, h', deleted, -⟩ := deletes
    rw [deletemin_overflow minusInfinity room h.property (Nat.not_le.mp large) finite] at deleted
    cases deleted
  · obtain ⟨minitem, h', deleted, inv, size, least, same⟩ :=
      deletemin_spec minusInfinity room h.property small present finite
    exact ⟨minitem, ⟨h', inv⟩, deleted, size, least, same⟩

/-- A queue with one element. -/
def single (x : α) : BinQueue α 2 3 :=
  ⟨{ currentsize := 1, thetrees := Function.update (fun _ => null) 0 (node x null null) }, by
    refine ⟨show 1 ≤ 3 by decide, fun i inside => ?_⟩
    match i, inside with
    | 0, _ => simp [Slot, BinomialTree, Forest, Tree.elements]
    | 1, _ => simp [Slot, Nat.testBit_succ]⟩

/-- A queue with two elements, the first of which is not above the other. -/
def pair {x y : α} (le : x ≤ y) : BinQueue α 2 3 :=
  ⟨{ currentsize := 2
     thetrees := Function.update (fun _ => null) 1 (node x (node y null null) null) }, by
    refine ⟨show 2 ≤ 3 by decide, fun i inside => ?_⟩
    match i, inside with
    | 0, _ => simp [Slot]
    | 1, _ => simpa [Slot, BinomialTree, Forest, Tree.elements, Nat.testBit_succ] using le⟩

/-- A queue with one element and one with two are merged, and the minimum of the three is
removed. -/
theorem binomial_priority_queue_three :
    ∃ (h1 h : BinQueue Nat 2 3) (h2 : Queue Nat) (minitem : Nat),
      merge 2 (single 7).val (pair (show 4 ≤ 9 by decide)).val = some (h1.val, h2, null) ∧
      h1.val.currentsize = 3 ∧ deletemin 2 100 0 h1.val = some (minitem, h.val) ∧
      h.val.currentsize = 2 ∧ h1.val.elements 2 = minitem ::ₘ h.val.elements 2 := by
  have queues := binomial_priority_queue_iff 100 0 (show 3 < 2 ^ 2 by decide)
  obtain ⟨h1, h2, merged, size, same⟩ :=
    (queues.1 (single 7) (pair (show 4 ≤ 9 by decide)) (by decide)).mpr (by decide)
  have three : h1.val.currentsize = 3 := size
  have finite : ∀ x ∈ h1.val.elements 2, x < 100 := by
    rw [same]
    decide
  obtain ⟨minitem, h, deleted, left, -, removed⟩ :=
    (queues.2 h1 (by rw [three]; decide) finite).mpr (by rw [three]; decide)
  rw [three] at left
  exact ⟨h1, h, h2, minitem, merged, three, deleted, Nat.succ.inj left, removed⟩

/-- A binomial forest whose elements are 0. -/
def zeros : Nat → Tree Nat
  | 0 => null
  | k + 1 => node 0 (zeros k) (zeros k)

/-- It is one. -/
theorem forest_zeros (k : Nat) : Forest k (zeros k) := by
  induction k with
  | zero => rfl
  | succ k smaller => exact ⟨fun y _ => Nat.zero_le y, smaller, smaller⟩

/-- A queue with one tree. -/
def oneTree (k : Nat) (fits : 2 ^ k ≤ capacity) : BinQueue Nat maxtrees capacity :=
  ⟨{ currentsize := 2 ^ k
     thetrees := Function.update (fun _ => null) k (node 0 (zeros k) null) }, by
    refine ⟨fits, fun i _ => ?_⟩
    rw [Nat.testBit_two_pow]
    by_cases here : k = i
    · subst here
      simp only [decide_true, Function.update_self]
      exact ⟨fun y _ => Nat.zero_le y, forest_zeros k, rfl⟩
    · simp only [here, decide_false, Function.update_of_ne (Ne.symm here)]
      rfl⟩

/-- `2 ^ 29` zeros. -/
def manyZeros : BinQueue Nat 31 (2 ^ 31 - 1) := oneTree 29 (by decide)

/-- Two queues with one tree of order 29 each are within the capacity, and `merge` overflows. -/
theorem merge_overflows :
    manyZeros.val.currentsize + manyZeros.val.currentsize ≤ 2 ^ 31 - 1 ∧
      merge 31 manyZeros.val manyZeros.val = none ∧ ¬ Merges manyZeros manyZeros := by
  have overflows : merge 31 manyZeros.val manyZeros.val = none :=
    merge_overflow (show 2 ^ 30 ≤ 2 ^ 29 + 2 ^ 29 by decide)
  refine ⟨show 2 ^ 29 + 2 ^ 29 ≤ 2 ^ 31 - 1 by decide, overflows, ?_⟩
  rintro ⟨h1', h2', merged, -⟩
  rw [overflows] at merged
  cases merged

end Queues

end CodeLearning.PriorityQueue.Binomial
