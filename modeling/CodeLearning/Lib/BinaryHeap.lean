import Mathlib.Algebra.Order.Group.Multiset
import Mathlib.Order.Interval.Finset.Nat

/-!
# Binary heaps in an array

Position `i` has its parent at `i / 2` and its children at `2 * i` and `2 * i + 1`; the root is at
position 1. A value moves through the array by a hole: the entry of a neighbour is copied into the
hole, which then is where the neighbour was. `Hole` is the order that stays around the hole, and
`Hole.fill` says when a value can be put there.
-/

namespace CodeLearning.BinaryHeap

variable {α : Type} {f : Nat → α} {n i p c : Nat} {x : α}

/-- The entries at the positions from 1 to `n`. -/
def contents (f : Nat → α) (n : Nat) : Multiset α := (Finset.Icc 1 n).val.map f

/-- The parent of every position is not above it. -/
def Ordered [LinearOrder α] (f : Nat → α) (n : Nat) : Prop :=
  ∀ j, 2 ≤ j → j ≤ n → f (j / 2) ≤ f j

/-- The order around a hole: pairs apart from it, and its parent over its children. -/
structure Hole [LinearOrder α] (f : Nat → α) (n i : Nat) : Prop where
  /-- The hole is a position of the heap. -/
  inside : 1 ≤ i ∧ i ≤ n
  /-- The pairs without the hole are in order. -/
  apart : ∀ j, 2 ≤ j → j ≤ n → j ≠ i → j / 2 ≠ i → f (j / 2) ≤ f j
  /-- The parent of the hole is not above a child of it. -/
  grand : 2 ≤ i → ∀ j ≤ n, j / 2 = i → f (i / 2) ≤ f j

/-! ## Contents -/

/-- An entry is one of the contents. -/
theorem mem_contents {y : α} : y ∈ contents f n ↔ ∃ j, 1 ≤ j ∧ j ≤ n ∧ f j = y := by
  simp only [contents, Multiset.mem_map, Finset.mem_val, Finset.mem_Icc, and_assoc]

/-- The contents with one more position. -/
theorem contents_succ : contents f (n + 1) = f (n + 1) ::ₘ contents f n := by
  have split : Finset.Icc 1 (n + 1) = insert (n + 1) (Finset.Icc 1 n) := by
    ext j
    simp only [Finset.mem_Icc, Finset.mem_insert]
    omega
  have fresh : n + 1 ∉ Finset.Icc 1 n := by simp
  rw [contents, split, Finset.insert_val_of_notMem fresh, Multiset.map_cons, contents]

/-- A write exchanges the old entry for the new one. -/
theorem contents_exchange (inside : 1 ≤ i ∧ i ≤ n) (x : α) :
    x ::ₘ contents f n = f i ::ₘ contents (Function.update f i x) n := by
  have mem : i ∈ (Finset.Icc 1 n).val := Finset.mem_val.mpr (Finset.mem_Icc.mpr inside)
  have others : ((Finset.Icc 1 n).val.erase i).map (Function.update f i x) =
      ((Finset.Icc 1 n).val.erase i).map f := by
    refine Multiset.map_congr rfl fun j memJ => ?_
    have apart : j ≠ i := ((Multiset.Nodup.mem_erase_iff (Finset.nodup _)).mp memJ).1
    exact Function.update_of_ne apart x f
  unfold contents
  rw [← Multiset.cons_erase mem, Multiset.map_cons, Multiset.map_cons, others,
    Function.update_self, Multiset.cons_swap]

/-- The contents with `x` in the hole stay the same when the hole moves. -/
theorem contents_move (insideI : 1 ≤ i ∧ i ≤ n) (insideP : 1 ≤ p ∧ p ≤ n) (apart : p ≠ i) (x : α) :
    contents (Function.update (Function.update f i (f p)) p x) n =
      contents (Function.update f i x) n := by
  have moved := contents_exchange (f := f) insideI (f p)
  have filled := contents_exchange (f := Function.update f i (f p)) insideP x
  have direct := contents_exchange (f := f) insideI x
  rw [Function.update_of_ne apart] at filled
  -- Both sides have the same contents once the old entry and the moved one are added.
  rw [← Multiset.cons_inj_right (f p), ← Multiset.cons_inj_right (f i), ← filled,
    Multiset.cons_swap, ← moved, Multiset.cons_swap, direct, Multiset.cons_swap]

/-! ## Order -/

section Order

variable [LinearOrder α]

/-- The root is a least entry. -/
theorem Ordered.root_le (ordered : Ordered f n) {j : Nat} (low : 1 ≤ j) (high : j ≤ n) :
    f 1 ≤ f j := by
  induction j using Nat.strong_induction_on with
  | _ j above =>
    by_cases root : j = 1
    · rw [root]
    · have parent := above (j / 2) (by omega) (by omega) (by omega)
      exact le_trans parent (ordered j (by omega) high)

/-- No entries are in order. -/
theorem ordered_zero (f : Nat → α) : Ordered f 0 := fun j low high => by omega

/-- Without its last position an ordered heap has a hole at its root. -/
theorem Ordered.hole_root (ordered : Ordered f (n + 1)) (present : 1 ≤ n) : Hole f n 1 where
  inside := ⟨Nat.le_refl _, present⟩
  apart j low high _ _ := ordered j low (by omega)
  grand low := absurd low (by decide)

/-- A value between the neighbours of the hole fills it. -/
theorem Hole.fill (hole : Hole f n i) (above : 2 ≤ i → f (i / 2) ≤ x)
    (below : ∀ j ≤ n, j / 2 = i → x ≤ f j) : Ordered (Function.update f i x) n := by
  have inside := hole.inside
  intro j low high
  by_cases here : j = i
  · subst here
    rw [Function.update_self, Function.update_of_ne (by omega)]
    exact above low
  · rw [Function.update_of_ne here]
    by_cases child : j / 2 = i
    · rw [child, Function.update_self]
      exact below j high child
    · rw [Function.update_of_ne child]
      exact hole.apart j low high here child

/-- The entry of the parent goes down into the hole. -/
theorem Hole.up (hole : Hole f n i) (low : 2 ≤ i) :
    Hole (Function.update f i (f (i / 2))) n (i / 2) := by
  have inside := hole.inside
  refine ⟨by omega, fun j lowJ high other apart => ?_, fun lowP j high child => ?_⟩
  · have here : j ≠ i := fun same => apart (by rw [same])
    rw [Function.update_of_ne here]
    by_cases below : j / 2 = i
    · rw [below, Function.update_self]
      exact hole.grand low j high below
    · rw [Function.update_of_ne below]
      exact hole.apart j lowJ high here below
  · have parent := hole.apart (i / 2) lowP (by omega) (by omega) (by omega)
    rw [Function.update_of_ne (show i / 2 / 2 ≠ i by omega)]
    by_cases here : j = i
    · rwa [here, Function.update_self]
    · rw [Function.update_of_ne here]
      have sibling := hole.apart j (by omega) high here (by omega)
      rw [child] at sibling
      exact le_trans parent sibling

/-- The entry of a least child goes up into the hole. -/
theorem Hole.down (hole : Hole f n i) (child : c / 2 = i) (high : c ≤ n)
    (least : ∀ j ≤ n, j / 2 = i → f c ≤ f j) : Hole (Function.update f i (f c)) n c := by
  have inside := hole.inside
  refine ⟨by omega, fun j lowJ highJ other apart => ?_, fun _ j highJ below => ?_⟩
  · by_cases here : j = i
    · subst here
      rw [Function.update_self, Function.update_of_ne (by omega)]
      exact hole.grand lowJ c high child
    · rw [Function.update_of_ne here]
      by_cases sibling : j / 2 = i
      · rw [sibling, Function.update_self]
        exact least j highJ sibling
      · rw [Function.update_of_ne sibling]
        exact hole.apart j lowJ highJ here sibling
  · rw [child, Function.update_self, Function.update_of_ne (by omega), ← below]
    exact hole.apart j (by omega) highJ (by omega) (by omega)

end Order

end CodeLearning.BinaryHeap
