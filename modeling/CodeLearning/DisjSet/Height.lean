import CodeLearning.DisjSet.Partition
import Mathlib.Data.Nat.Log
import Mathlib.Order.Interval.Finset.Nat

/-!
# Union by height

The entry of a root is meant to be its height, negated. `setunion_high` compares the entries the
wrong way round: of two roots with different entries it attaches the higher tree to the lower one
and leaves the entry of the lower one as it was. The entries are the heights after every call
exactly in the runs that unite roots of equal entries only, and there no tree is higher than the
logarithm of the number of elements.
-/

namespace CodeLearning.DisjSet

open ParentForest

/-- Calls of `setunion_high` in order. -/
def unionAll (s : Entries) (unions : List (Nat × Nat)) : Entries :=
  unions.foldl (fun s union => setunionHigh s union.1 union.2) s

/-- Every call is on two distinct current roots. -/
def OnRoots (numsets : Nat) : Entries → List (Nat × Nat) → Prop
  | _, [] => True
  | s, (a, b) :: rest => DistinctRoots numsets s a b ∧ OnRoots numsets (setunionHigh s a b) rest

/-- Every call is on two roots with equal entries. -/
def EqualEntries : Entries → List (Nat × Nat) → Prop
  | _, [] => True
  | s, (a, b) :: rest => s a = s b ∧ EqualEntries (setunionHigh s a b) rest

/-- The elements for which `find` returns the root. -/
def members (numsets : Nat) (s : Entries) (root : Nat) : Set Nat :=
  { x | Element numsets x ∧ Finds s x root }

/-- The entries of the roots are their heights, and the trees are shallow. -/
structure Shallow (numsets : Nat) (s : Entries) : Prop where
  /-- The longest chain of links below a root is as long as its entry says. -/
  height : ∀ r, Element numsets r → s r ≤ 0 → IsHeight (parent numsets s) r (-s r).toNat
  /-- A tree has at least two to the power of its height elements. -/
  size : ∀ r, Element numsets r → s r ≤ 0 → 2 ^ (-s r).toNat ≤ (members numsets s r).ncard
  /-- `find` follows at most `log2(numsets)` links, so one more call is enough. -/
  quick : ∀ x, Element numsets x → ∃ root, find (Nat.log 2 numsets + 1) s x = some root

/-- The trees are shallow before the first call and after every call. -/
def AlwaysShallow (numsets : Nat) : Entries → List (Nat × Nat) → Prop
  | s, [] => Shallow numsets s
  | s, (a, b) :: rest => Shallow numsets s ∧ AlwaysShallow numsets (setunionHigh s a b) rest

section Height

variable {numsets a b x r h : Nat} {s : Entries} {pairs : List (Nat × Nat)}

/-- The elements for which `find` returns the root are its tree. -/
theorem Inv.members_eq (inv : Inv numsets s pairs) (root : Element numsets r) :
    members numsets s r = tree (parent numsets s) r := by
  ext x
  constructor
  · rintro ⟨element, finds⟩
    exact (inv.finds_iff element).mp finds
  · rintro ⟨n, leads⟩
    have element : Element numsets x := by
      cases leads with
      | root _ => exact root
      | link up _ => exact (entry_of_parent up).1
    exact ⟨element, (inv.finds_iff element).mpr ⟨n, leads⟩⟩

/-- A tree has elements only. -/
theorem members_subset (numsets : Nat) (s : Entries) (r : Nat) :
    members numsets s r ⊆ (Finset.Icc 1 numsets : Finset Nat) := by
  intro x member
  exact Finset.mem_coe.mpr (Finset.mem_Icc.mpr member.1)

/-- A tree is finite. -/
theorem finite_members (numsets : Nat) (s : Entries) (r : Nat) : (members numsets s r).Finite :=
  (Finset.finite_toSet (Finset.Icc 1 numsets)).subset (members_subset numsets s r)

/-- A tree has at most all elements. -/
theorem ncard_members_le (numsets : Nat) (s : Entries) (r : Nat) :
    (members numsets s r).ncard ≤ numsets := by
  have le := Set.ncard_le_ncard (members_subset numsets s r)
  rwa [Set.ncard_coe_finset, Nat.card_Icc, Nat.add_sub_cancel] at le

/-- Heights and sizes make `find` quick. -/
theorem Inv.quick (inv : Inv numsets s pairs)
    (height : ∀ r, Element numsets r → s r ≤ 0 → IsHeight (parent numsets s) r (-s r).toNat)
    (size : ∀ r, Element numsets r → s r ≤ 0 → 2 ^ (-s r).toNat ≤ (members numsets s r).ncard)
    (element : Element numsets x) : ∃ root, find (Nat.log 2 numsets + 1) s x = some root := by
  obtain ⟨n, r, leads⟩ := inv.rooted x element
  have root : Element numsets r := inv.element leads element
  have top : s r ≤ 0 := (parent_eq_none root).mp leads.top
  have links : n ≤ (-s r).toNat := (height r root top).bound n x leads
  have few : 2 ^ (-s r).toNat ≤ numsets := (size r root top).trans (ncard_members_le numsets s r)
  have bound : (-s r).toNat ≤ Nat.log 2 numsets := Nat.le_log_of_pow_le (by decide) few
  exact ⟨r, find_of_leads leads element inv.inside (by omega)⟩

/-- The entries after a call on roots with equal entries. -/
theorem setunionHigh_equal (equal : s a = s b) (x : Nat) :
    setunionHigh s a b x = if x = b then (a : Int) else if x = a then s a - 1 else s x := by
  rw [setunionHigh, if_neg (by omega)]
  simp only [equal, if_true]
  by_cases second : x = b
  · rw [second, Function.update_self, if_pos rfl]
  · rw [Function.update_of_ne second, if_neg second]
    by_cases first : x = a
    · rw [first, Function.update_self, if_pos rfl]
    · rw [Function.update_of_ne first, if_neg first]

/-- A call on roots with equal entries keeps the trees shallow. -/
theorem Shallow.union (shallow : Shallow numsets s) (reached : Reaches numsets s pairs)
    (roots : DistinctRoots numsets s a b) (equal : s a = s b) :
    Shallow numsets (setunionHigh s a b) := by
  have inv := reached.inv
  have after := (reached.unionHigh roots).inv
  have topA := (parent_eq_none roots.first).mpr roots.firstRoot
  have topB := (parent_eq_none roots.second).mpr roots.secondRoot
  have links := parent_setunionHigh_else roots (by omega : ¬ s a < s b)
  have entry := setunionHigh_equal equal
  have entryA : setunionHigh s a b a = s a - 1 := by
    rw [entry, if_neg roots.distinct, if_pos rfl]
  have taller : (-(s a - 1)).toNat = (-s a).toNat + 1 := by
    have root := roots.firstRoot
    omega
  have notB : ∀ r, setunionHigh s a b r ≤ 0 → r ≠ b := by
    rintro r root rfl
    have positive := roots.first.1
    rw [entry, if_pos rfl] at root
    omega
  have height : ∀ r, Element numsets r → setunionHigh s a b r ≤ 0 →
      IsHeight (parent numsets (setunionHigh s a b)) r (-setunionHigh s a b r).toNat := by
    intro r element root
    by_cases same : r = a
    · subst same
      have grown := (shallow.height r roots.first roots.firstRoot).attach_self
        (shallow.height b roots.second roots.secondRoot) topA topB roots.distinct
      rw [← equal, Nat.max_eq_right (Nat.le_succ _)] at grown
      rw [links, entryA, taller]
      exact grown
    · have other := notB r root
      have kept : setunionHigh s a b r = s r := by rw [entry, if_neg other, if_neg same]
      rw [kept] at root ⊢
      rw [links]
      exact (shallow.height r element root).attach_other topA topB roots.distinct same other
  have size : ∀ r, Element numsets r → setunionHigh s a b r ≤ 0 →
      2 ^ (-setunionHigh s a b r).toNat ≤ (members numsets (setunionHigh s a b) r).ncard := by
    intro r element root
    by_cases same : r = a
    · subst same
      have sizeA := shallow.size r roots.first roots.firstRoot
      have sizeB := shallow.size b roots.second roots.secondRoot
      have apart : Disjoint (members numsets s r) (members numsets s b) := by
        rw [inv.members_eq roots.first, inv.members_eq roots.second]
        exact disjoint_tree roots.distinct
      have both : members numsets (setunionHigh s r b) r =
          members numsets s r ∪ members numsets s b := by
        rw [after.members_eq element, links, tree_attach_self topA topB roots.distinct,
          inv.members_eq roots.first, inv.members_eq roots.second]
      rw [both, Set.ncard_union_eq apart (finite_members numsets s r) (finite_members numsets s b),
        entryA, taller, Nat.pow_succ]
      rw [← equal] at sizeB
      omega
    · have other := notB r root
      have kept : setunionHigh s a b r = s r := by rw [entry, if_neg other, if_neg same]
      rw [kept] at root ⊢
      rw [after.members_eq element, links,
        tree_attach_other topA topB roots.distinct same other, ← inv.members_eq element]
      exact shallow.size r element root
  exact ⟨height, size, fun x element => after.quick height size element⟩

/-- A call on roots with different entries leaves an entry that is not the height. -/
theorem Shallow.not_union (shallow : Shallow numsets s) (roots : DistinctRoots numsets s a b)
    (different : s a ≠ s b) : ¬ Shallow numsets (setunionHigh s a b) := by
  intro after
  have topA := (parent_eq_none roots.first).mpr roots.firstRoot
  have topB := (parent_eq_none roots.second).mpr roots.secondRoot
  have heightA := shallow.height a roots.first roots.firstRoot
  have heightB := shallow.height b roots.second roots.secondRoot
  have rootA := roots.firstRoot
  have rootB := roots.secondRoot
  by_cases less : s a < s b
  · -- The higher tree of `a` is attached to `b`, whose entry stays.
    have entry : setunionHigh s a b b = s b := by
      rw [setunionHigh, if_pos less, Function.update_of_ne roots.distinct.symm]
    have grown := heightB.attach_self heightA topB topA roots.distinct.symm
    rw [← parent_setunionHigh_less roots less] at grown
    have same := grown.unique (after.height b roots.second (by omega))
    rw [entry] at same
    omega
  · -- The higher tree of `b` is attached to `a`, whose entry stays.
    have entry : setunionHigh s a b a = s a := by
      rw [setunionHigh, if_neg less]
      simp only [different, if_false]
      rw [Function.update_of_ne roots.distinct]
    have grown := heightA.attach_self heightB topA topB roots.distinct
    rw [← parent_setunionHigh_else roots less] at grown
    have same := grown.unique (after.height a roots.first (by omega))
    rw [entry] at same
    omega

/-- The trees are shallow after `initialize`. -/
theorem shallow_initializeSets (numsets : Nat) (memory : Entries) :
    Shallow numsets (initializeSets numsets memory) := by
  have inv := (Reaches.start memory : Reaches numsets _ []).inv
  have zero : ∀ r, Element numsets r → initializeSets numsets memory r = 0 := by
    intro r element
    rw [initializeSets, initLoop_apply, if_pos ⟨element.1, element.2⟩]
  have top : ∀ r, parent numsets (initializeSets numsets memory) r = none :=
    fun r => parent_initializeSets memory
  have height : ∀ r, Element numsets r → initializeSets numsets memory r ≤ 0 →
      IsHeight (parent numsets (initializeSets numsets memory)) r
        (-initializeSets numsets memory r).toNat := by
    intro r element _
    rw [zero r element]
    refine ⟨⟨r, Leads.root (top r)⟩, fun n x leads => ?_⟩
    exact Nat.le_of_eq (leads.of_top (top x)).1
  have size : ∀ r, Element numsets r → initializeSets numsets memory r ≤ 0 →
      2 ^ (-initializeSets numsets memory r).toNat ≤
        (members numsets (initializeSets numsets memory) r).ncard := by
    intro r element _
    rw [zero r element]
    have mine : r ∈ members numsets (initializeSets numsets memory) r :=
      ⟨element, finds_of_leads (Leads.root (top r)) element inv.inside⟩
    exact (Set.ncard_pos (finite_members numsets _ r)).mpr ⟨r, mine⟩
  exact ⟨height, size, fun x element => inv.quick height size element⟩

/-- From shallow trees, they stay shallow exactly when every call is on equal entries. -/
theorem alwaysShallow_iff (shallow : Shallow numsets s) (reached : Reaches numsets s pairs)
    (unions : List (Nat × Nat)) (onRoots : OnRoots numsets s unions) :
    AlwaysShallow numsets s unions ↔ EqualEntries s unions := by
  induction unions generalizing s pairs with
  | nil => exact iff_of_true shallow trivial
  | cons union rest more =>
    obtain ⟨a, b⟩ := union
    obtain ⟨roots, later⟩ := onRoots
    constructor
    · rintro ⟨-, always⟩
      have after : Shallow numsets (setunionHigh s a b) := by
        cases rest with
        | nil => exact always
        | cons _ _ => exact always.1
      have equal : s a = s b := by
        by_contra different
        exact shallow.not_union roots different after
      exact ⟨equal, (more after (reached.unionHigh roots) later).mp always⟩
    · rintro ⟨equal, equals⟩
      have after := shallow.union reached roots equal
      exact ⟨shallow, (more after (reached.unionHigh roots) later).mpr equals⟩

/-- After every call the entries of the roots are their heights and the trees are shallow, exactly
in the runs that unite roots of equal entries only. -/
theorem heights_kept_iff (numsets : Nat) (memory : Entries) (unions : List (Nat × Nat))
    (onRoots : OnRoots numsets (initializeSets numsets memory) unions) :
    AlwaysShallow numsets (initializeSets numsets memory) unions ↔
      EqualEntries (initializeSets numsets memory) unions :=
  alwaysShallow_iff (shallow_initializeSets numsets memory) (Reaches.start memory) unions onRoots

/-- Four elements united in pairs, and then the pairs. -/
theorem heights_kept_four :
    AlwaysShallow 4 (initializeSets 4 fun _ => 0) [(1, 2), (3, 4), (1, 3)] := by
  refine (heights_kept_iff 4 (fun _ => 0) [(1, 2), (3, 4), (1, 3)] ?_).mpr ?_
  · refine ⟨?_, ?_, ?_, trivial⟩
    · constructor <;> decide
    · constructor <;> decide
    · constructor <;> decide
  · refine ⟨?_, ?_, ?_, trivial⟩
    · decide
    · decide
    · decide

/-- The pair 1, 2 is united with 3: its chain of two links ends at 3, whose entry is still 0. -/
theorem heights_lost_three :
    DistinctRoots 3 (initializeSets 3 fun _ => 0) 1 2 ∧
      DistinctRoots 3 (unionAll (initializeSets 3 fun _ => 0) [(1, 2)]) 1 3 ∧
      unionAll (initializeSets 3 fun _ => 0) [(1, 2), (1, 3)] 3 = 0 ∧
      Leads (parent 3 (unionAll (initializeSets 3 fun _ => 0) [(1, 2), (1, 3)])) 2 2 3 ∧
      ¬ Shallow 3 (unionAll (initializeSets 3 fun _ => 0) [(1, 2), (1, 3)]) := by
  have first : parent 3 (unionAll (initializeSets 3 fun _ => 0) [(1, 2), (1, 3)]) 2 = some 1 := by
    decide
  have second : parent 3 (unionAll (initializeSets 3 fun _ => 0) [(1, 2), (1, 3)]) 1 = some 3 := by
    decide
  have chain : Leads (parent 3 (unionAll (initializeSets 3 fun _ => 0) [(1, 2), (1, 3)])) 2 2 3 :=
    Leads.link first (Leads.link second (Leads.root (by decide)))
  refine ⟨by constructor <;> decide, by constructor <;> decide, by decide, chain, ?_⟩
  intro shallow
  have bound := (shallow.height 3 (by decide) (by decide)).bound 2 2 chain
  exact absurd bound (by decide)

end Height

end CodeLearning.DisjSet
