import CodeLearning.Lib.ParentForest
import Mathlib.Logic.Relation

/-!
# Disjoint sets

`disjset.c` keeps one array: a positive entry is the parent of the element, any other entry marks
a root. Every run of unions and of finds that compress keeps the links a forest whose trees are
the classes of the smallest equivalence with the united pairs. `find` calls itself along the
links, so a run of it takes as many calls as its fuel allows.
-/

namespace CodeLearning.DisjSet

open ParentForest

/-- `disjset`: the entries of the array. -/
abbrev Entries := Nat → Int

/-- The loop of `initialize` from `i` down. -/
def initLoop : Nat → Entries → Entries
  | 0, s => s
  | i + 1, s => initLoop i (Function.update s (i + 1) 0)

/-- `initialize`; the memory of the array holds anything before. -/
def initializeSets (numsets : Nat) (s : Entries) : Entries := initLoop numsets s

/-- `setunion`. -/
def setunion (s : Entries) (root1 root2 : Nat) : Entries := Function.update s root2 root1

/-- `setunion_high`. -/
def setunionHigh (s : Entries) (root1 root2 : Nat) : Entries :=
  if s root1 < s root2 then Function.update s root1 root2
  else
    let lowered := if s root1 = s root2 then Function.update s root1 (s root1 - 1) else s
    Function.update lowered root2 root1

/-- `find`; `none` when it has not returned after so many calls. -/
def find : Nat → Entries → Nat → Option Nat
  | 0, _, _ => none
  | fuel + 1, s, x => if s x ≤ 0 then some x else find fuel s (s x).toNat

/-- `find_route_compress`, with its test on `s[x]`: the root and the array. -/
def findRouteCompress (fuel : Nat) (s : Entries) (x : Nat) : Option (Nat × Entries) :=
  if s x ≤ 0 then some (x, s)
  else (find fuel s (s x).toNat).map fun root => (root, Function.update s x root)

/-- `find` returns, with this root. -/
def Finds (s : Entries) (x root : Nat) : Prop :=
  ∃ calls, ∀ fuel ≥ calls, find fuel s x = some root

/-- An element of the sets. -/
def Element (numsets x : Nat) : Prop := 0 < x ∧ x ≤ numsets

/-- Whether a number is an element can be decided. -/
instance (numsets x : Nat) : Decidable (Element numsets x) := inferInstanceAs (Decidable (_ ∧ _))

/-- Two distinct current roots. -/
structure DistinctRoots (numsets : Nat) (s : Entries) (a b : Nat) : Prop where
  /-- The first is an element. -/
  first : Element numsets a
  /-- The second is an element. -/
  second : Element numsets b
  /-- They are distinct. -/
  distinct : a ≠ b
  /-- The first is a root. -/
  firstRoot : s a ≤ 0
  /-- The second is a root. -/
  secondRoot : s b ≤ 0

/-- The states that calls reach, with the pairs united so far. -/
inductive Reaches (numsets : Nat) : Entries → List (Nat × Nat) → Prop where
  /-- `initialize`. -/
  | start (memory : Entries) : Reaches numsets (initializeSets numsets memory) []
  /-- A call of `setunion`. -/
  | union {s : Entries} {pairs : List (Nat × Nat)} {a b : Nat} (before : Reaches numsets s pairs)
      (roots : DistinctRoots numsets s a b) : Reaches numsets (setunion s a b) ((a, b) :: pairs)
  /-- A call of `setunion_high`. -/
  | unionHigh {s : Entries} {pairs : List (Nat × Nat)} {a b : Nat}
      (before : Reaches numsets s pairs) (roots : DistinctRoots numsets s a b) :
      Reaches numsets (setunionHigh s a b) ((a, b) :: pairs)
  /-- A call of `find_route_compress` that returns. -/
  | compress {s s' : Entries} {pairs : List (Nat × Nat)} {fuel x root : Nat}
      (before : Reaches numsets s pairs) (element : Element numsets x)
      (returns : findRouteCompress fuel s x = some (root, s')) : Reaches numsets s' pairs

/-- The parent of an element, if it is not a root. -/
def parent (numsets : Nat) (s : Entries) (x : Nat) : Option Nat :=
  if 0 < x ∧ x ≤ numsets ∧ 0 < s x then some (s x).toNat else none

/-- The smallest equivalence with the united pairs. -/
def Related (pairs : List (Nat × Nat)) : Nat → Nat → Prop :=
  Relation.EqvGen fun a b => (a, b) ∈ pairs

/-! ## Entries and parents -/

section Parents

variable {numsets n a b x y r : Nat} {s s' : Entries}

/-- `initialize` makes every element a root. -/
theorem initLoop_apply (i : Nat) (s : Entries) (x : Nat) :
    initLoop i s x = if 0 < x ∧ x ≤ i then 0 else s x := by
  induction i generalizing s with
  | zero =>
    have empty : ¬ (0 < x ∧ x ≤ 0) := by omega
    rw [initLoop, if_neg empty]
  | succ i rest =>
    rw [initLoop, rest]
    by_cases last : x = i + 1
    · subst last
      simp
    · rw [Function.update_of_ne last]
      congr 1
      apply propext
      omega

/-- `initialize` leaves no links. -/
theorem parent_initializeSets (memory : Entries) :
    parent numsets (initializeSets numsets memory) x = none := by
  unfold parent initializeSets
  rw [initLoop_apply]
  refine if_neg ?_
  rintro ⟨positive, inside, linked⟩
  rw [if_pos ⟨positive, inside⟩] at linked
  omega

/-- An element is a root when its entry is not positive. -/
theorem parent_eq_none (element : Element numsets x) : parent numsets s x = none ↔ s x ≤ 0 := by
  unfold parent
  obtain ⟨positive, inside⟩ := element
  by_cases linked : 0 < s x
  · rw [if_pos ⟨positive, inside, linked⟩]
    exact iff_of_false (by simp) (by omega)
  · rw [if_neg (fun all => linked all.2.2)]
    exact iff_of_true rfl (by omega)

/-- Setting an entry to an element links it there. -/
theorem parent_update (element : Element numsets b) (positive : 0 < a) :
    parent numsets (Function.update s b a) = Function.update (parent numsets s) b (some a) := by
  funext x
  unfold parent
  by_cases here : x = b
  · subst here
    have linked : (0 : Int) < a := by omega
    simp only [Function.update_self, Int.toNat_natCast]
    exact if_pos ⟨element.1, element.2, linked⟩
  · simp only [Function.update_of_ne here]

/-- Lowering the entry of a root keeps the links. -/
theorem parent_lower (root : s a ≤ 0) :
    parent numsets (Function.update s a (s a - 1)) = parent numsets s := by
  funext x
  unfold parent
  by_cases here : x = a
  · subst here
    have before : ¬ (0 < x ∧ x ≤ numsets ∧ 0 < s x) := by omega
    have after : ¬ (0 < x ∧ x ≤ numsets ∧ 0 < s x - 1) := by omega
    rw [Function.update_self, if_neg before, if_neg after]
  · rw [Function.update_of_ne here]

/-- `setunion` attaches the second root to the first. -/
theorem parent_setunion (roots : DistinctRoots numsets s a b) :
    parent numsets (setunion s a b) = attach (parent numsets s) a b :=
  parent_update roots.second roots.first.1

/-- `setunion_high` attaches the first root to the second when its entry is less. -/
theorem parent_setunionHigh_less (roots : DistinctRoots numsets s a b) (less : s a < s b) :
    parent numsets (setunionHigh s a b) = attach (parent numsets s) b a := by
  rw [setunionHigh, if_pos less]
  exact parent_update roots.first roots.second.1

/-- `setunion_high` attaches the second root to the first otherwise. -/
theorem parent_setunionHigh_else (roots : DistinctRoots numsets s a b) (notLess : ¬ s a < s b) :
    parent numsets (setunionHigh s a b) = attach (parent numsets s) a b := by
  rw [setunionHigh, if_neg notLess, parent_update roots.second roots.first.1]
  split
  · rw [parent_lower roots.firstRoot]
    rfl
  · rfl

end Parents

/-! ## Calls of find -/

section Find

variable {numsets n m fuel x y r q : Nat} {s s' : Entries} {pairs : List (Nat × Nat)}

/-- Parents are elements. -/
def Inside (numsets : Nat) (s : Entries) : Prop :=
  ∀ x y, parent numsets s x = some y → Element numsets y

/-- A link is an entry. -/
theorem entry_of_parent (up : parent numsets s x = some y) :
    Element numsets x ∧ 0 < s x ∧ (s x).toNat = y := by
  unfold parent at up
  split at up
  · rename_i linked
    exact ⟨⟨linked.1, linked.2.1⟩, linked.2.2, Option.some.inj up⟩
  · cases up

/-- `find` follows the links to the root. -/
theorem find_of_leads (leads : Leads (parent numsets s) n x r) (element : Element numsets x)
    (inside : Inside numsets s) (enough : n < fuel) : find fuel s x = some r := by
  induction leads generalizing fuel with
  | root top =>
    obtain ⟨calls, rfl⟩ := Nat.exists_eq_add_of_lt enough
    rw [Nat.zero_add, find, if_pos ((parent_eq_none element).mp top)]
  | @link n x y r up rest more =>
    obtain ⟨calls, rfl⟩ : ∃ calls, fuel = calls + 1 := ⟨fuel - 1, by omega⟩
    obtain ⟨-, linked, target⟩ := entry_of_parent up
    rw [find, if_neg (by omega), target]
    exact more (inside x y up) (by omega)

/-- `find` returns where the links lead. -/
theorem finds_of_leads (leads : Leads (parent numsets s) n x r) (element : Element numsets x)
    (inside : Inside numsets s) : Finds s x r :=
  ⟨n + 1, fun _ enough => find_of_leads leads element inside enough⟩

/-- `find` has one result. -/
theorem Finds.unique (finds : Finds s x r) (other : Finds s x q) : r = q := by
  obtain ⟨n, calls⟩ := finds
  obtain ⟨m, calls'⟩ := other
  have same := (calls (max n m) (Nat.le_max_left n m)).symm.trans
    (calls' (max n m) (Nat.le_max_right n m))
  exact Option.some.inj same

/-- A result of `find` is where the links lead. -/
theorem leads_of_find (returns : find fuel s x = some r) (element : Element numsets x)
    (inside : Inside numsets s) : ∃ n, Leads (parent numsets s) n x r := by
  induction fuel generalizing x with
  | zero => cases returns
  | succ fuel more =>
    rw [find] at returns
    split at returns
    · rename_i root
      obtain rfl := Option.some.inj returns
      exact ⟨0, Leads.root ((parent_eq_none element).mpr root)⟩
    · rename_i linked
      have up : parent numsets s x = some (s x).toNat :=
        if_pos ⟨element.1, element.2, by omega⟩
      obtain ⟨n, leads⟩ := more returns (inside x _ up)
      exact ⟨n + 1, Leads.link up leads⟩

end Find

/-! ## Runs -/

/-- What holds in every state that calls reach. -/
structure Inv (numsets : Nat) (s : Entries) (pairs : List (Nat × Nat)) : Prop where
  /-- Parents are elements. -/
  inside : Inside numsets s
  /-- Links lead every element to a root. -/
  rooted : ∀ x, Element numsets x → ∃ n r, Leads (parent numsets s) n x r
  /-- A link stays within a class. -/
  sound : ∀ x y, parent numsets s x = some y → Related pairs x y
  /-- United elements lead to the same root. -/
  united : ∀ a b, (a, b) ∈ pairs →
    ∃ r n m, Leads (parent numsets s) n a r ∧ Leads (parent numsets s) m b r

section Runs

variable {numsets n m fuel a b x y r q : Nat} {s s' : Entries} {pairs : List (Nat × Nat)}
  {pair : Nat × Nat}

/-- More pairs relate more. -/
theorem Related.more (related : Related pairs x y) : Related (pair :: pairs) x y :=
  Relation.EqvGen.mono (fun _ _ mem => List.mem_cons_of_mem pair mem) x y related

/-- Links stay within a class. -/
theorem Inv.related (inv : Inv numsets s pairs) (leads : Leads (parent numsets s) n x r) :
    Related pairs x r := by
  induction leads with
  | root _ => exact .refl _
  | link up _ more => exact .trans _ _ _ (inv.sound _ _ up) more

/-- Links lead from elements to elements. -/
theorem Inv.element (inv : Inv numsets s pairs) (leads : Leads (parent numsets s) n x r)
    (element : Element numsets x) : Element numsets r := by
  induction leads with
  | root _ => exact element
  | link up _ more => exact more (inv.inside _ _ up)

/-- The invariant holds after `initialize`. -/
theorem Inv.start (memory : Entries) : Inv numsets (initializeSets numsets memory) [] := by
  constructor
  · intro x y up
    rw [parent_initializeSets] at up
    cases up
  · intro x _
    exact ⟨0, x, Leads.root (parent_initializeSets memory)⟩
  · intro x y up
    rw [parent_initializeSets] at up
    cases up
  · intro a b mem
    cases mem

/-- A node leads on after one root is attached to another. -/
theorem exists_leads_attach {up : Nat → Option Nat} (leads : Leads up n x r) (topA : up a = none)
    (topB : up b = none) (different : a ≠ b) :
    ∃ n', Leads (attach up a b) n' x (if r = b then a else r) := by
  by_cases below : r = b
  · subst below
    rw [if_pos rfl]
    exact ⟨n + 1, leads.attach_below topA different⟩
  · rw [if_neg below]
    exact ⟨n, leads.attach_other topB below⟩

/-- Attaching a root to another unites their classes. -/
theorem Inv.attach (inv : Inv numsets s pairs) (first : Element numsets a)
    (topA : parent numsets s a = none) (topB : parent numsets s b = none) (different : a ≠ b)
    (links : parent numsets s' = attach (parent numsets s) a b)
    (named : pair = (a, b) ∨ pair = (b, a)) : Inv numsets s' (pair :: pairs) := by
  have joined : Related (pair :: pairs) b a := by
    rcases named with rfl | rfl
    · exact .symm _ _ (.rel _ _ List.mem_cons_self)
    · exact .rel _ _ List.mem_cons_self
  have rootA : parent numsets s' a = none := by
    rw [links, ParentForest.attach, Function.update_of_ne different, topA]
  have below : Leads (parent numsets s') 1 b a := by
    refine Leads.link ?_ (Leads.root rootA)
    rw [links, ParentForest.attach, Function.update_self]
  constructor
  · intro x y up
    rw [links, ParentForest.attach] at up
    rcases link_of_update up with ⟨rfl, rfl⟩ | up
    · exact first
    · exact inv.inside x y up
  · intro x element
    obtain ⟨n, r, leads⟩ := inv.rooted x element
    obtain ⟨n', led⟩ := exists_leads_attach leads topA topB different
    exact ⟨n', _, links ▸ led⟩
  · intro x y up
    rw [links, ParentForest.attach] at up
    rcases link_of_update up with ⟨rfl, rfl⟩ | up
    · exact joined
    · exact (inv.sound x y up).more
  · intro c d mem
    rcases List.mem_cons.mp mem with new | old
    · rcases named with rfl | rfl
      · obtain ⟨rfl, rfl⟩ := Prod.mk.inj new
        exact ⟨c, 0, 1, Leads.root rootA, below⟩
      · obtain ⟨rfl, rfl⟩ := Prod.mk.inj new
        exact ⟨d, 1, 0, below, Leads.root rootA⟩
    · obtain ⟨r, n, m, leads, leads'⟩ := inv.united c d old
      obtain ⟨n', led⟩ := exists_leads_attach leads topA topB different
      obtain ⟨m', led'⟩ := exists_leads_attach leads' topA topB different
      exact ⟨_, n', m', links ▸ led, links ▸ led'⟩

/-- Pointing an element at its root keeps the invariant. -/
theorem Inv.shortcut (inv : Inv numsets s pairs) (element : Element numsets x)
    (leads : Leads (parent numsets s) n x r) (below : x ≠ r) :
    Inv numsets (Function.update s x r) pairs := by
  have root : Element numsets r := inv.element leads element
  have links : parent numsets (Function.update s x r) =
      Function.update (parent numsets s) x (some r) := parent_update element root.1
  constructor
  · intro y z up
    rw [links] at up
    rcases link_of_update up with ⟨rfl, rfl⟩ | up
    · exact root
    · exact inv.inside y z up
  · intro y elementY
    obtain ⟨m, q, led⟩ := inv.rooted y elementY
    obtain ⟨m', led'⟩ := led.shortcut leads below
    exact ⟨m', q, links ▸ led'⟩
  · intro y z up
    rw [links] at up
    rcases link_of_update up with ⟨rfl, rfl⟩ | up
    · exact inv.related leads
    · exact inv.sound y z up
  · intro c d mem
    obtain ⟨q, m, k, led, led'⟩ := inv.united c d mem
    obtain ⟨m', led⟩ := led.shortcut leads below
    obtain ⟨k', led'⟩ := led'.shortcut leads below
    exact ⟨q, m', k', links ▸ led, links ▸ led'⟩

/-- What `find_route_compress` does to an element that is not a root. -/
theorem findRouteCompress_below (below : 0 < s x) :
    findRouteCompress fuel s x =
      (find fuel s (s x).toNat).map fun root : Nat => (root, Function.update s x (root : Int)) := by
  rw [findRouteCompress, if_neg (by omega)]

/-- The invariant holds in every state that calls reach. -/
theorem Reaches.inv (reached : Reaches numsets s pairs) : Inv numsets s pairs := by
  induction reached with
  | start memory => exact Inv.start memory
  | @union s pairs a b _ roots inv =>
    have topA := (parent_eq_none roots.first).mpr roots.firstRoot
    have topB := (parent_eq_none roots.second).mpr roots.secondRoot
    exact inv.attach roots.first topA topB roots.distinct (parent_setunion roots) (Or.inl rfl)
  | @unionHigh s pairs a b _ roots inv =>
    have topA := (parent_eq_none roots.first).mpr roots.firstRoot
    have topB := (parent_eq_none roots.second).mpr roots.secondRoot
    by_cases less : s a < s b
    · exact inv.attach roots.second topB topA roots.distinct.symm
        (parent_setunionHigh_less roots less) (Or.inr rfl)
    · exact inv.attach roots.first topA topB roots.distinct
        (parent_setunionHigh_else roots less) (Or.inl rfl)
  | @compress s s' pairs fuel x root _ element returns inv =>
    by_cases linked : 0 < s x
    · rw [findRouteCompress_below linked, Option.map_eq_some_iff] at returns
      obtain ⟨r, found, same⟩ := returns
      obtain ⟨rfl, rfl⟩ := Prod.mk.inj same
      have up : parent numsets s x = some (s x).toNat := if_pos ⟨element.1, element.2, linked⟩
      obtain ⟨n, leads⟩ := leads_of_find found (inv.inside _ _ up) inv.inside
      have below : x ≠ r := by
        rintro rfl
        rw [leads.top] at up
        cases up
      exact inv.shortcut element (Leads.link up leads) below
    · rw [findRouteCompress, if_pos (by omega)] at returns
      obtain ⟨-, rfl⟩ := Prod.mk.inj (Option.some.inj returns)
      exact inv

end Runs

/-! ## Classes -/

/-- What `find_route_compress` does to an element: it returns the root that `find` returns, and
keeps the roots and what `find` returns for every element. -/
def Compresses (numsets : Nat) (s : Entries) (x : Nat) : Prop :=
  ∃ root s' calls, Finds s x root ∧
    (∀ fuel ≥ calls, findRouteCompress fuel s x = some (root, s')) ∧
    (∀ y, Element numsets y → (s' y ≤ 0 ↔ s y ≤ 0)) ∧
    ∀ y r, Element numsets y → (Finds s' y r ↔ Finds s y r)

/-- The array computes the classes of the equivalence. -/
structure Computes (numsets : Nat) (s : Entries) (pairs : List (Nat × Nat)) : Prop where
  /-- `find` returns a root for every element. -/
  ends : ∀ x, Element numsets x → ∃ root, Finds s x root ∧ Element numsets root ∧ s root ≤ 0
  /-- Two elements have the same root when they are related. -/
  classes : ∀ x y, Element numsets x → Element numsets y →
    ((∃ root, Finds s x root ∧ Finds s y root) ↔ Related pairs x y)
  /-- `find_route_compress` changes no class. -/
  compresses : ∀ x, Element numsets x → Compresses numsets s x

section Classes

variable {numsets n m x y r q : Nat} {s s' : Entries} {pairs : List (Nat × Nat)}

/-- `find` returns exactly where the links lead. -/
theorem Inv.finds_iff (inv : Inv numsets s pairs) (element : Element numsets x) :
    Finds s x r ↔ ∃ n, Leads (parent numsets s) n x r := by
  constructor
  · intro finds
    obtain ⟨n, q, leads⟩ := inv.rooted x element
    obtain rfl := finds.unique (finds_of_leads leads element inv.inside)
    exact ⟨n, leads⟩
  · rintro ⟨n, leads⟩
    exact finds_of_leads leads element inv.inside

/-- Related elements lead to the same roots. -/
theorem Inv.leads_of_related (inv : Inv numsets s pairs) (related : Related pairs x y) :
    (∃ n, Leads (parent numsets s) n x r) ↔ ∃ n, Leads (parent numsets s) n y r := by
  induction related with
  | rel a b mem =>
    obtain ⟨q, n, m, leads, leads'⟩ := inv.united a b mem
    constructor
    · rintro ⟨k, led⟩
      obtain ⟨-, rfl⟩ := leads.unique led
      exact ⟨m, leads'⟩
    · rintro ⟨k, led⟩
      obtain ⟨-, rfl⟩ := leads'.unique led
      exact ⟨n, leads⟩
  | refl _ => exact Iff.rfl
  | symm _ _ _ same => exact same.symm
  | trans _ _ _ _ _ first second => exact first.trans second

/-- Two elements lead to the same root when they are related. -/
theorem Inv.related_iff (inv : Inv numsets s pairs) (elementX : Element numsets x)
    (elementY : Element numsets y) :
    (∃ root, Finds s x root ∧ Finds s y root) ↔ Related pairs x y := by
  constructor
  · rintro ⟨root, findsX, findsY⟩
    obtain ⟨n, leads⟩ := (inv.finds_iff elementX).mp findsX
    obtain ⟨m, leads'⟩ := (inv.finds_iff elementY).mp findsY
    exact .trans _ _ _ (inv.related leads) (.symm _ _ (inv.related leads'))
  · intro related
    obtain ⟨n, r, leads⟩ := inv.rooted x elementX
    have led := (inv.leads_of_related related).mp ⟨n, leads⟩
    exact ⟨r, (inv.finds_iff elementX).mpr ⟨n, leads⟩, (inv.finds_iff elementY).mpr led⟩

/-- `find_route_compress` of a root does nothing. -/
theorem Inv.compresses_root (inv : Inv numsets s pairs) (element : Element numsets x)
    (root : s x ≤ 0) : Compresses numsets s x := by
  have leads : Leads (parent numsets s) 0 x x := Leads.root ((parent_eq_none element).mpr root)
  refine ⟨x, s, 0, finds_of_leads leads element inv.inside, ?_, fun _ _ => Iff.rfl,
    fun _ _ _ => Iff.rfl⟩
  intro fuel _
  rw [findRouteCompress, if_pos root]

/-- `find_route_compress` of another element points it at its root. -/
theorem Inv.compresses_below (inv : Inv numsets s pairs) (element : Element numsets x)
    (linked : 0 < s x) : Compresses numsets s x := by
  have up : parent numsets s x = some (s x).toNat := if_pos ⟨element.1, element.2, linked⟩
  have above : Element numsets (s x).toNat := inv.inside _ _ up
  obtain ⟨n, r, leads⟩ := inv.rooted _ above
  have below : x ≠ r := by
    rintro rfl
    rw [leads.top] at up
    cases up
  have whole : Leads (parent numsets s) (n + 1) x r := Leads.link up leads
  have after : Inv numsets (Function.update s x r) pairs := inv.shortcut element whole below
  refine ⟨r, Function.update s x r, n + 1, finds_of_leads whole element inv.inside, ?_, ?_, ?_⟩
  · intro fuel enough
    rw [findRouteCompress_below linked, find_of_leads leads above inv.inside enough]
    rfl
  · intro y _
    by_cases here : y = x
    · subst here
      have positive := (inv.element leads above).1
      rw [Function.update_self]
      omega
    · rw [Function.update_of_ne here]
  · intro y q elementY
    -- Both arrays lead an element to one root, and the links of the old one outlive the change.
    have keeps : ∀ q, Finds s y q → Finds (Function.update s x r) y q := by
      intro q finds
      obtain ⟨m, led⟩ := (inv.finds_iff elementY).mp finds
      obtain ⟨m', led'⟩ := led.shortcut whole below
      rw [← parent_update element (inv.element leads above).1] at led'
      exact (after.finds_iff elementY).mpr ⟨m', led'⟩
    refine ⟨fun finds => ?_, keeps q⟩
    obtain ⟨m, q', led⟩ := inv.rooted y elementY
    have old := (inv.finds_iff elementY).mpr ⟨m, led⟩
    obtain rfl := finds.unique (keeps q' old)
    exact old

/-- In every state that calls reach, `find` returns for every element, two elements have the same
root exactly when they are related by the united pairs, and `find_route_compress` returns what
`find` returns and changes no class. -/
theorem partition_generated (numsets : Nat) (s : Entries) (pairs : List (Nat × Nat))
    (reached : Reaches numsets s pairs) : Computes numsets s pairs := by
  have inv := reached.inv
  refine ⟨?_, fun x y elementX elementY => inv.related_iff elementX elementY, ?_⟩
  · intro x element
    obtain ⟨n, r, leads⟩ := inv.rooted x element
    have root := inv.element leads element
    exact ⟨r, finds_of_leads leads element inv.inside, root, (parent_eq_none root).mp leads.top⟩
  · intro x element
    by_cases linked : 0 < s x
    · exact inv.compresses_below element linked
    · exact inv.compresses_root element (by omega)

/-- Element 2 of three is united with 1, and then 1 with 3 by height. -/
theorem partition_generated_three :
    Computes 3 (setunionHigh (setunion (initializeSets 3 fun _ => 7) 1 2) 1 3)
      [(1, 3), (1, 2)] := by
  refine partition_generated 3 _ _ (.unionHigh (.union (.start fun _ => 7) ?_) ?_)
  · constructor <;> decide
  · constructor <;> decide

end Classes

end CodeLearning.DisjSet
