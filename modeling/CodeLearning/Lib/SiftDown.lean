import Mathlib.Order.Lattice
import Mathlib.Logic.Function.Basic

/-!
# Sifting down

In a heap with its greatest value at the front, position `i` has its children at `2 * i + 1` and
`2 * i + 2`. A heap is built from its end: `HeapFrom` says that all parents from a position on are
not less than their children. A value that is put at a position of such a heap sinks until no child
is greater; `Sift` is the order that stays around it on its way.
-/

namespace CodeLearning.SiftDown

variable {α : Type} [LinearOrder α] {f : Nat → α} {n k i c : Nat} {x : α}

/-- A position is a child of another one. -/
def IsChild (n i j : Nat) : Prop := j < n ∧ (j = 2 * i + 1 ∨ j = 2 * i + 2)

/-- The parents from a position on are not less than their children. -/
def HeapFrom (f : Nat → α) (n k : Nat) : Prop := ∀ i j, k ≤ i → IsChild n i j → f j ≤ f i

/-- The order around a position where a value is to be put. -/
structure Sift (f : Nat → α) (n k i : Nat) (x : α) : Prop where
  /-- Pairs without this position. -/
  apart : ∀ p j, k ≤ p → IsChild n p j → j ≠ i → p ≠ i → f j ≤ f p
  /-- Its parent is not less than its children. -/
  grand : ∀ p j, k ≤ p → IsChild n p i → IsChild n i j → f j ≤ f p
  /-- Its parent is not less than the value. -/
  above : ∀ p, k ≤ p → IsChild n p i → x ≤ f p

/-- Positions without children. -/
theorem heapFrom_of_half (half : n ≤ 2 * k + 1) : HeapFrom f n k := by
  intro i j low child
  unfold IsChild at child
  omega

/-- The root is a greatest value. -/
theorem HeapFrom.root (heap : HeapFrom f n 0) {j : Nat} (inside : j < n) : f j ≤ f 0 := by
  induction j using Nat.strongRecOn with
  | ind j smaller =>
    by_cases root : j = 0
    · rw [root]
    · have parent : IsChild n ((j - 1) / 2) j := ⟨inside, by omega⟩
      exact le_trans (heap _ _ (Nat.zero_le _) parent)
        (smaller ((j - 1) / 2) (by omega) (by omega))

/-- A value sinks from the position before the heap. -/
theorem HeapFrom.start (heap : HeapFrom f n (k + 1)) (x : α) : Sift f n k k x where
  apart p j low child _ other := heap p j (by omega) child
  grand p j low child _ := by
    unfold IsChild at child
    omega
  above p low child := by
    unfold IsChild at child
    omega

/-- A heap is in order around each of its values. -/
theorem HeapFrom.sift (heap : HeapFrom f n k) (low : k ≤ i) : Sift f n k i (f i) where
  apart p j lowP child _ _ := heap p j lowP child
  grand p j lowP parent child := le_trans (heap i j low child) (heap p i lowP parent)
  above p lowP parent := heap p i lowP parent

/-- A greatest child, which is not less than the value, goes up. -/
theorem Sift.down (sift : Sift f n k i x) (low : k ≤ i) (child : IsChild n i c)
    (greatest : ∀ j, IsChild n i j → f j ≤ f c) (le : x ≤ f c) :
    Sift (Function.update f i (f c)) n k c x where
  apart p j lowP childP notC notAbove := by
    by_cases here : j = i
    · have parent : p ≠ i := by
        unfold IsChild at childP
        omega
      rw [here] at childP ⊢
      rw [Function.update_self, Function.update_of_ne parent]
      exact sift.grand p c lowP childP child
    · rw [Function.update_of_ne here]
      by_cases sibling : p = i
      · rw [sibling] at childP ⊢
        rw [Function.update_self]
        exact greatest j childP
      · rw [Function.update_of_ne sibling]
        exact sift.apart p j lowP childP here sibling
  grand p j lowP parent below := by
    have same : p = i ∧ j ≠ i ∧ c ≠ i := by
      unfold IsChild at parent child below
      omega
    rw [same.1, Function.update_self, Function.update_of_ne same.2.1]
    exact sift.apart c j (by unfold IsChild at child; omega) below same.2.1 same.2.2
  above p lowP parent := by
    have same : p = i := by
      unfold IsChild at parent child
      omega
    rw [same, Function.update_self]
    exact le

/-- The position may hold anything on the way. -/
theorem Sift.place (sift : Sift f n k i x) (y : α) : Sift (Function.update f i y) n k i x where
  apart p j low child notHere notAbove := by
    rw [Function.update_of_ne notHere, Function.update_of_ne notAbove]
    exact sift.apart p j low child notHere notAbove
  grand p j low parent child := by
    have apart : j ≠ i ∧ p ≠ i := by
      unfold IsChild at parent child
      omega
    rw [Function.update_of_ne apart.1, Function.update_of_ne apart.2]
    exact sift.grand p j low parent child
  above p low parent := by
    have apart : p ≠ i := by
      unfold IsChild at parent
      omega
    rw [Function.update_of_ne apart]
    exact sift.above p low parent

/-- The value stays where no child is greater. -/
theorem Sift.fill (sift : Sift f n k i x) (below : ∀ j, IsChild n i j → f j ≤ x) :
    HeapFrom (Function.update f i x) n k := by
  intro p j low child
  have apart : j ≠ p := by
    unfold IsChild at child
    omega
  by_cases here : j = i
  · rw [here] at child apart ⊢
    rw [Function.update_self, Function.update_of_ne (Ne.symm apart)]
    exact sift.above p low child
  · rw [Function.update_of_ne here]
    by_cases parent : p = i
    · rw [parent] at child ⊢
      rw [Function.update_self]
      exact below j child
    · rw [Function.update_of_ne parent]
      exact sift.apart p j low child here parent

end CodeLearning.SiftDown
