import Mathlib.Data.Set.Card
import Mathlib.Logic.Function.Basic
import Mathlib.Order.CompletePartialOrder

/-!
# Forests of parent links

A forest maps a node to its parent, if it has one. `Leads` says that following so many links from
a node ends at a root. Attaching one root to another, and pointing a node at its own root, keep
every node led to a root; the trees, their heights and their sizes change only at the roots that
are involved.
-/

namespace CodeLearning

namespace ParentForest

variable {V : Type}

/-- From `x`, `n` links lead to the root `r`. -/
inductive Leads (parent : V → Option V) : Nat → V → V → Prop where
  /-- A root leads to itself. -/
  | root {r : V} (top : parent r = none) : Leads parent 0 r r
  /-- A link and those of the parent. -/
  | link {n : Nat} {x y r : V} (up : parent x = some y) (rest : Leads parent n y r) :
      Leads parent (n + 1) x r

/-- The nodes of the tree below a root. -/
def tree (parent : V → Option V) (r : V) : Set V := { x | ∃ n, Leads parent n x r }

/-- The longest chain of links to the root has `h` links. -/
structure IsHeight (parent : V → Option V) (r : V) (h : Nat) : Prop where
  /-- A chain of this length. -/
  reached : ∃ x, Leads parent h x r
  /-- No chain is longer. -/
  bound : ∀ n x, Leads parent n x r → n ≤ h

variable {parent : V → Option V} {n m h k : Nat} {a b q r x y : V}

/-- Links lead to a root. -/
theorem Leads.top (leads : Leads parent n x r) : parent r = none := by
  induction leads with
  | root top => exact top
  | link _ _ rest => exact rest

/-- A node leads to one root, by one number of links. -/
theorem Leads.unique (leads : Leads parent n x r) (other : Leads parent m x q) :
    n = m ∧ r = q := by
  induction leads generalizing m with
  | root top =>
    cases other with
    | root _ => exact ⟨rfl, rfl⟩
    | link up _ =>
      rw [top] at up
      cases up
  | link up _ rest =>
    cases other with
    | root top =>
      rw [top] at up
      cases up
    | link up' later =>
      obtain rfl := Option.some.inj (up.symm.trans up')
      obtain ⟨same, same'⟩ := rest later
      exact ⟨congrArg (· + 1) same, same'⟩

/-- A root leads to itself only. -/
theorem Leads.of_top (top : parent x = none) (leads : Leads parent n x r) : n = 0 ∧ r = x := by
  obtain ⟨same, same'⟩ := leads.unique (Leads.root top)
  exact ⟨same, same'⟩

/-- A height is unique. -/
theorem IsHeight.unique (height : IsHeight parent r h) (other : IsHeight parent r k) : h = k := by
  obtain ⟨x, leads⟩ := height.reached
  obtain ⟨y, leads'⟩ := other.reached
  exact Nat.le_antisymm (other.bound h x leads) (height.bound k y leads')

/-- A node of one tree is not in another. -/
theorem disjoint_tree (different : a ≠ b) : Disjoint (tree parent a) (tree parent b) := by
  refine Set.disjoint_left.mpr ?_
  rintro x ⟨n, leads⟩ ⟨m, leads'⟩
  exact different (leads.unique leads').2

section Attach

variable [DecidableEq V]

/-- A link after `b` has got the parent `a` is that one, or it was there before. -/
theorem link_of_update (up : Function.update parent b (some a) x = some y) :
    (x = b ∧ y = a) ∨ parent x = some y := by
  by_cases here : x = b
  · subst here
    rw [Function.update_self] at up
    exact Or.inl ⟨rfl, (Option.some.inj up).symm⟩
  · rw [Function.update_of_ne here] at up
    exact Or.inr up

/-- Root `b` becomes a child of `a`. -/
def attach (parent : V → Option V) (a b : V) : V → Option V := Function.update parent b (some a)

/-- The other nodes keep their parents. -/
theorem attach_of_link (topB : parent b = none) (up : parent x = some y) :
    attach parent a b x = some y := by
  have other : x ≠ b := by
    rintro rfl
    rw [topB] at up
    cases up
  rw [attach, Function.update_of_ne other, up]

/-- A node of another tree leads where it led. -/
theorem Leads.attach_other (leads : Leads parent n x r) (topB : parent b = none)
    (other : r ≠ b) : Leads (attach parent a b) n x r := by
  induction leads with
  | root top => exact Leads.root (by rw [attach, Function.update_of_ne other, top])
  | link up _ more => exact Leads.link (attach_of_link topB up) (more other)

/-- A node of the attached tree leads to the new root by one more link. -/
theorem Leads.attach_below (leads : Leads parent n x b) (topA : parent a = none)
    (different : a ≠ b) : Leads (attach parent a b) (n + 1) x a := by
  have topB : parent b = none := leads.top
  induction leads with
  | @root r top =>
    have up : attach parent a r r = some a := by rw [attach, Function.update_self]
    have root : attach parent a r a = none := by
      rw [attach, Function.update_of_ne different, topA]
    exact Leads.link up (Leads.root root)
  | link up _ more => exact Leads.link (attach_of_link topB up) (more different topB)

/-- Where a node leads after one root is attached to another. -/
theorem Leads.of_attach (leads : Leads (attach parent a b) n x r) (topA : parent a = none)
    (topB : parent b = none) (different : a ≠ b) :
    r ≠ b ∧ (Leads parent n x r ∨ r = a ∧ ∃ m, n = m + 1 ∧ Leads parent m x b) := by
  induction leads with
  | @root r top =>
    have other : r ≠ b := by
      rintro rfl
      rw [attach, Function.update_self] at top
      cases top
    rw [attach, Function.update_of_ne other] at top
    exact ⟨other, Or.inl (Leads.root top)⟩
  | @link n x y r up rest more =>
    obtain ⟨other, before⟩ := more
    refine ⟨other, ?_⟩
    rcases link_of_update up with ⟨rfl, rfl⟩ | up
    · have root : attach parent y x y = none := by
        rw [attach, Function.update_of_ne different, topA]
      obtain ⟨rfl, rfl⟩ := Leads.of_top root rest
      exact Or.inr ⟨rfl, 0, rfl, Leads.root topB⟩
    · rcases before with led | ⟨same, m, rfl, led⟩
      · exact Or.inl (Leads.link up led)
      · exact Or.inr ⟨same, m + 1, rfl, Leads.link up led⟩

/-- The tree of the new root holds both trees. -/
theorem tree_attach_self (topA : parent a = none) (topB : parent b = none) (different : a ≠ b) :
    tree (attach parent a b) a = tree parent a ∪ tree parent b := by
  ext x
  constructor
  · rintro ⟨n, leads⟩
    rcases (leads.of_attach topA topB different).2 with led | ⟨-, m, -, led⟩
    · exact Or.inl ⟨n, led⟩
    · exact Or.inr ⟨m, led⟩
  · rintro (⟨n, leads⟩ | ⟨n, leads⟩)
    · exact ⟨n, leads.attach_other topB different⟩
    · exact ⟨n + 1, leads.attach_below topA different⟩

/-- The other trees stay. -/
theorem tree_attach_other (topA : parent a = none) (topB : parent b = none) (different : a ≠ b)
    (notA : r ≠ a) (notB : r ≠ b) : tree (attach parent a b) r = tree parent r := by
  ext x
  constructor
  · rintro ⟨n, leads⟩
    rcases (leads.of_attach topA topB different).2 with led | ⟨same, -⟩
    · exact ⟨n, led⟩
    · exact absurd same notA
  · rintro ⟨n, leads⟩
    exact ⟨n, leads.attach_other topB notB⟩

/-- The height of the new root. -/
theorem IsHeight.attach_self (heightA : IsHeight parent a h) (heightB : IsHeight parent b k)
    (topA : parent a = none) (topB : parent b = none) (different : a ≠ b) :
    IsHeight (attach parent a b) a (max h (k + 1)) := by
  constructor
  · rcases Nat.le_total h (k + 1) with le | le
    · obtain ⟨x, leads⟩ := heightB.reached
      rw [Nat.max_eq_right le]
      exact ⟨x, leads.attach_below topA different⟩
    · obtain ⟨x, leads⟩ := heightA.reached
      rw [Nat.max_eq_left le]
      exact ⟨x, leads.attach_other topB different⟩
  · intro n x leads
    rcases (leads.of_attach topA topB different).2 with led | ⟨-, m, rfl, led⟩
    · exact Nat.le_trans (heightA.bound n x led) (Nat.le_max_left h (k + 1))
    · have below := heightB.bound m x led
      omega

/-- The other heights stay. -/
theorem IsHeight.attach_other (height : IsHeight parent r h) (topA : parent a = none)
    (topB : parent b = none) (different : a ≠ b) (notA : r ≠ a) (notB : r ≠ b) :
    IsHeight (attach parent a b) r h := by
  constructor
  · obtain ⟨x, leads⟩ := height.reached
    exact ⟨x, leads.attach_other topB notB⟩
  · intro n x leads
    rcases (leads.of_attach topA topB different).2 with led | ⟨same, -⟩
    · exact height.bound n x led
    · exact absurd same notA

/-- Pointing a node at its root keeps where every node leads. -/
theorem Leads.shortcut (leads : Leads parent n x r) (short : Leads parent m y q)
    (below : y ≠ q) : ∃ n', Leads (Function.update parent y (some q)) n' x r := by
  have root : Function.update parent y (some q) q = none := by
    rw [Function.update_of_ne below.symm, short.top]
  induction leads with
  | @root r top =>
    have other : r ≠ y := by
      rintro rfl
      exact below (Leads.of_top top short).2.symm
    exact ⟨0, Leads.root (by rw [Function.update_of_ne other, top])⟩
  | @link n x z r up rest more =>
    by_cases here : x = y
    · subst here
      obtain ⟨-, rfl⟩ := short.unique (Leads.link up rest)
      exact ⟨1, Leads.link (Function.update_self x (some q) parent) (Leads.root root)⟩
    · obtain ⟨n', led⟩ := more
      exact ⟨n' + 1, Leads.link (by rw [Function.update_of_ne here, up]) led⟩

end Attach

end ParentForest

end CodeLearning
