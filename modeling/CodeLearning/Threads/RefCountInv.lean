import CodeLearning.Threads.RefCount
import Mathlib.Algebra.Order.BigOperators.Group.Finset
import Mathlib.Data.Fintype.BigOperators

/-!
# The invariant of the reference counts

Each statement changes the locks, the references and the links of its thread in a way that the
program counters before and after it tell (`Discipline`). From this table follow the owners of
the locks, the counts and the chains of the hash table, for one statement of any thread and then
for every run.
-/

namespace CodeLearning.Threads.RefCount

open CInt LinkedList

section Discipline

variable {T : Type}

/-- `hashlock` is held from its lock to its unlock. -/
def HashRule (p p' : Pc) : Act → Prop
  | .lockHash => p.hasHash = false ∧ p'.hasHash = true
  | .unlockHash => p.hasHash = true ∧ p'.hasHash = false
  | _ => p'.hasHash = p.hasHash

/-- The mutex of an object is held from its lock to its unlock. -/
def LockedRule (p p' : Pc) : Act → Prop
  | .lockFoo fp => p.locked = none ∧ p'.locked = some fp
  | .unlockFoo fp => p.locked = some fp ∧ p'.locked = none
  | _ => p'.locked = p.locked

/-- A reference comes with an increment and goes with a decrement or when the object is unlinked;
at the end of the call it goes to the caller. -/
def OwnedRule (p p' : Pc) : Act → Prop
  | .incr fp => p.owned = none ∧ p'.owned = some fp ∧ p' ≠ .idle
  | .decr fp => p.owned = some fp ∧ p'.owned = none ∧ p' ≠ .idle
  | .unlinkHead fp => p.owned = some fp ∧ p'.owned = none ∧ p' ≠ .idle
  | .unlinkAfter fp _ => p.owned = some fp ∧ p'.owned = none ∧ p' ≠ .idle
  | _ => p' = .idle ∨ p'.owned = p.owned

/-- A new object is linked. -/
def MakingRule (p p' : Pc) : Act → Prop
  | .setHead fp => p.making = some fp ∧ p'.making = none
  | .unlinkHead _ => p.making = none ∧ p'.making = none
  | .unlinkAfter .. => p.making = none ∧ p'.making = none
  | _ => p'.making = p.making

/-- An unlinked object is destroyed. -/
def DroppingRule (p p' : Pc) : Act → Prop
  | .unlinkHead fp => p.dropping = none ∧ p'.dropping = some fp
  | .unlinkAfter fp _ => p.dropping = none ∧ p'.dropping = some fp
  | .destroy fp => p.dropping = some fp ∧ p'.dropping = none
  | _ => p'.dropping = p.dropping

/-- `hashlock` is locked before any mutex, and counts and links are changed under their locks. -/
def GuardRule (p : Pc) : Act → Prop
  | .lockHash => p.locked = none
  | .incr fp => p.locked = some fp
  | .decr fp => p.locked = some fp
  | .setNext fp => p.hasHash = true ∧ p.making = some fp
  | .setHead _ => p.hasHash = true
  | .unlinkHead fp => p.hasHash = true ∧ p.locked = some fp
  | .unlinkAfter fp _ => p.hasHash = true ∧ p.locked = some fp
  | _ => True

/-- How a statement changes what the program counter says. -/
structure Discipline (p : Pc) (act : Act) (p' : Pc) : Prop where
  /-- The owner of `hashlock`. -/
  hash : HashRule p p' act
  /-- The owner of a mutex. -/
  locked : LockedRule p p' act
  /-- The references of calls. -/
  owned : OwnedRule p p' act
  /-- New objects. -/
  making : MakingRule p p' act
  /-- Unlinked objects. -/
  dropping : DroppingRule p p' act
  /-- The locks that are needed. -/
  guarded : GuardRule p act

/-- Every statement keeps the discipline. -/
theorem instr_discipline (s : State T) {p : Pc} (busy : p ≠ .idle) :
    Discipline p (instr s p).1 (instr s p).2 := by
  cases p with
  | idle => exact absurd rfl busy
  | holdUnlock inFind fp =>
    cases inFind <;> constructor <;>
      simp [instr, HashRule, LockedRule, OwnedRule, MakingRule, DroppingRule, GuardRule,
        Pc.hasHash, Pc.locked, Pc.owned, Pc.making, Pc.dropping]
  | findTest _ _ | releTest _ | releRetest _ | releSearch _ | releLoop _ _ =>
    unfold instr
    dsimp only
    split_ifs <;> constructor <;>
      simp [HashRule, LockedRule, OwnedRule, MakingRule, DroppingRule, GuardRule, Pc.hasHash,
        Pc.locked, Pc.owned, Pc.making, Pc.dropping]
  | _ =>
    constructor <;>
      simp [instr, HashRule, LockedRule, OwnedRule, MakingRule, DroppingRule, GuardRule,
        Pc.hasHash, Pc.locked, Pc.owned, Pc.making, Pc.dropping]

end Discipline

section State

variable {T : Type} [DecidableEq T] {s : State T} {t u : T} {a b : Addr} {p : Pc} {act : Act}

omit [DecidableEq T] in
/-- A statement keeps the program counters. -/
@[simp]
theorem perform_pc : (perform s t act).pc = s.pc := by
  cases act <;> rfl

omit [DecidableEq T] in
/-- A statement keeps the references of the callers. -/
@[simp]
theorem perform_refs : (perform s t act).refs = s.refs := by
  cases act <;> rfl

/-- A statement changes no references of other threads. -/
theorem held_goTo_other (other : u ≠ t) : held (s.goTo t p) u a = held s u a := by
  unfold held State.goTo
  have refs : (if p = .idle then s.given t (s.pc t).owned else s.refs) u = s.refs u := by
    split
    · cases (s.pc t).owned with
      | none => rfl
      | some fp => exact Function.update_of_ne other _ _
    · rfl
  simp only [Function.update_of_ne other, refs]

/-- A call that returns keeps the references of its thread: what it holds goes to the caller. -/
theorem held_return : held (s.goTo t .idle) t a = held s t a := by
  have nothing : Pc.idle.owned = none := rfl
  unfold held State.goTo
  simp only [if_pos, Function.update_self, nothing]
  cases (s.pc t).owned with
  | none => rfl
  | some fp =>
    by_cases same : a = fp
    · subst same
      simp [State.given]
    · have different : fp ≠ a := fun equal => same equal.symm
      simp [State.given, Function.update_of_ne same, different]

/-- A call that goes on changes the references of its thread with its own. -/
theorem held_goTo_self (stays : p ≠ .idle) :
    held (s.goTo t p) t a = s.refs t a + if p.owned = some a then 1 else 0 := by
  simp [held, State.goTo, stays]

omit [DecidableEq T] in
/-- The effect on the shared data changes no references. -/
theorem held_perform : held (perform s t act) u a = held s u a := by
  simp [held]

/-- A statement that keeps the reference of its call keeps all references. -/
theorem held_kept (same : p = .idle ∨ p.owned = (s.pc t).owned) :
    held (s.goTo t p) u a = held s u a := by
  by_cases self : u = t
  · subst self
    by_cases returns : p = .idle
    · rw [returns, held_return]
    · have owned := same.resolve_left returns
      rw [held_goTo_self returns, owned, held]
  · exact held_goTo_other self

/-- A statement that gives its call a reference. -/
theorem held_gained (before : (s.pc t).owned = none) (after : p.owned = some b)
    (stays : p ≠ .idle) :
    held (s.goTo t p) u a = held s u a + if u = t ∧ a = b then 1 else 0 := by
  by_cases self : u = t
  · subst self
    rw [held_goTo_self stays, held, before, after]
    by_cases same : a = b
    · simp [same]
    · have different : b ≠ a := fun equal => same equal.symm
      simp [same, different]
  · rw [held_goTo_other self]
    simp [self]

/-- A statement that takes the reference of its call. -/
theorem held_lost (before : (s.pc t).owned = some b) (after : p.owned = none)
    (stays : p ≠ .idle) :
    (held (s.goTo t p) u a + if u = t ∧ a = b then 1 else 0) = held s u a := by
  by_cases self : u = t
  · subst self
    rw [held_goTo_self stays, held, before, after]
    by_cases same : a = b
    · simp [same]
    · have different : b ≠ a := fun equal => same equal.symm
      simp [same, different]
  · rw [held_goTo_other self]
    simp [self]

/-- All references to an object. -/
def total [Fintype T] (s : State T) (fp : Addr) : Nat := ∑ t, held s t fp

variable [Fintype T]

/-- A statement that keeps the reference of its call keeps the number of references. -/
theorem total_kept (same : p = .idle ∨ p.owned = (s.pc t).owned) :
    total (s.goTo t p) a = total s a :=
  Finset.sum_congr rfl fun _ _ => held_kept same

/-- A statement that gives its call a reference adds one. -/
theorem total_gained (before : (s.pc t).owned = none) (after : p.owned = some b)
    (stays : p ≠ .idle) :
    total (s.goTo t p) a = total s a + if a = b then 1 else 0 := by
  simp only [total, held_gained before after stays, Finset.sum_add_distrib, ite_and,
    Finset.sum_ite_eq', Finset.mem_univ, if_true]

/-- A statement that takes the reference of its call removes one. -/
theorem total_lost (before : (s.pc t).owned = some b) (after : p.owned = none)
    (stays : p ≠ .idle) :
    (total (s.goTo t p) a + if a = b then 1 else 0) = total s a := by
  have sums : total s a = ∑ u, (held (s.goTo t p) u a + if u = t ∧ a = b then 1 else 0) :=
    Finset.sum_congr rfl fun _ _ => (held_lost before after stays).symm
  rw [sums]
  simp only [total, Finset.sum_add_distrib, ite_and, Finset.sum_ite_eq', Finset.mem_univ,
    if_true]

omit [DecidableEq T] in
/-- No thread has more references than all threads. -/
theorem held_le_total : held s t a ≤ total s a :=
  Finset.single_le_sum (f := fun t => held s t a) (fun _ _ => Nat.zero_le _) (Finset.mem_univ t)

/-- Two threads have no more references than all threads. -/
theorem held_add_le_total (other : t ≠ u) : held s t a + held s u a ≤ total s a := by
  have rest : held s u a ≤ ∑ v ∈ Finset.univ.erase t, held s v a :=
    Finset.single_le_sum (f := fun t => held s t a) (fun _ _ => Nat.zero_le _)
      (Finset.mem_erase.mpr ⟨other.symm, Finset.mem_univ u⟩)
  rw [total, ← Finset.add_sum_erase _ _ (Finset.mem_univ t)]
  omega

end State

/-! ## The invariant -/

section Invariant

variable {T : Type} {s : State T} {t u : T} {a b : Addr} {chain : Fin nhash → List Addr}
  {p p' : Pc} {act : Act}

/-- `f_next` of every object. -/
def nextOf (s : State T) (fp : Addr) : Option Addr := some (s.foo fp).next

/-- The object was linked and not unlinked. -/
def Linked (s : State T) (fp : Addr) : Prop := s.links fp = 1 ∧ s.unlinks fp = 0

/-- What a thread knows of the shared data at its next statement. -/
def Known (chain : Fin nhash → List Addr) (s : State T) (t : T) : Pc → Prop
  | .allocHead fp => (s.foo fp).next = s.fh (s.idx fp)
  | .holdLock true fp => Linked s fp
  | .holdLock false fp => 0 < s.refs t fp
  | .holdCount true fp => Linked s fp
  | .holdCount false fp => 0 < s.refs t fp
  | .findTest _ fp => fp = 0 ∨ Linked s fp
  | .findNext _ fp => Linked s fp
  | .releDecr fp => (s.foo fp).count ≠ 1
  | .releDecrAgain fp => (s.foo fp).count ≠ 1
  | .releSearch fp => (s.foo fp).count = 1
  | .releUnlinkHead fp => (s.foo fp).count = 1 ∧ s.fh (s.idx fp) = fp
  | .releLoop fp tfp =>
    (s.foo fp).count = 1 ∧ ∃ front back, chain (s.idx fp) = front ++ tfp :: back ∧ fp ∈ back
  | .releUnlinkAfter fp tfp =>
    (s.foo fp).count = 1 ∧ ∃ front back, chain (s.idx fp) = front ++ tfp :: fp :: back
  | .releDestroy fp => s.lock fp = .free
  | .crashed _ => False
  | _ => True

/-- What a thread knows when it takes a step with an effect. -/
def Before (chain : Fin nhash → List Addr) (s : State T) : Act → Prop
  | .lockFoo fp => s.unlinks fp = 0
  | .incr fp => s.unlinks fp = 0
  | .decr fp => (s.foo fp).count ≠ 1
  | .setHead fp => (s.foo fp).next = s.fh (s.idx fp)
  | .unlinkHead fp => (s.foo fp).count = 1 ∧ s.fh (s.idx fp) = fp
  | .unlinkAfter fp tfp =>
    (s.foo fp).count = 1 ∧ ∃ front back, chain (s.idx fp) = front ++ tfp :: fp :: back
  | .destroy fp => s.lock fp = .free
  | _ => True

/-- The chains after a step. -/
def chainAfter (chain : Fin nhash → List Addr) (s : State T) : Act → Fin nhash → List Addr
  | .setHead fp => Function.update chain (s.idx fp) (fp :: chain (s.idx fp))
  | .unlinkHead fp => Function.update chain (s.idx fp) ((chain (s.idx fp)).erase fp)
  | .unlinkAfter fp _ => Function.update chain (s.idx fp) ((chain (s.idx fp)).erase fp)
  | _ => chain

/-- What `foo_alloc` says of the objects that are not linked yet. -/
structure Making (s : State T) : Prop where
  /-- A new object is not linked yet. -/
  unlinked : ∀ t fp, (s.pc t).making = some fp → s.links fp = 0
  /-- Only one thread makes an object. -/
  alone : ∀ t u fp, (s.pc t).making = some fp → (s.pc u).making = some fp → t = u
  /-- An object that is not linked yet is new. -/
  exists_maker : ∀ fp, s.lock fp ≠ .absent → s.links fp = 0 → ∃ t, (s.pc t).making = some fp

/-- What `foo_rele` says of the objects that are not destroyed yet. -/
structure Dropping (s : State T) : Prop where
  /-- An object that is being dropped was unlinked and not destroyed. -/
  unlinked : ∀ t fp, (s.pc t).dropping = some fp → s.unlinks fp = 1 ∧ s.destroys fp = 0
  /-- Only one thread drops an object. -/
  alone : ∀ t u fp, (s.pc t).dropping = some fp → (s.pc u).dropping = some fp → t = u
  /-- An object that was unlinked and not destroyed is being dropped. -/
  exists_dropper : ∀ fp, s.unlinks fp = 1 → s.destroys fp = 0 → ∃ t, (s.pc t).dropping = some fp

/-- An object is linked, unlinked and destroyed at most once, in this order. -/
def Once (s : State T) : Prop :=
  ∀ fp, s.links fp ≤ 1 ∧ s.unlinks fp ≤ s.links fp ∧ s.destroys fp ≤ s.unlinks fp

/-- How the histories change with a step. -/
inductive Events (s : State T) (t : T) (p' : Pc) (s' : State T) : Prop where
  /-- No object is linked, unlinked or destroyed. -/
  | none (making : p'.making = (s.pc t).making) (dropping : p'.dropping = (s.pc t).dropping)
      (links : s'.links = s.links) (unlinks : s'.unlinks = s.unlinks)
      (destroys : s'.destroys = s.destroys)
  /-- The new object of the thread is linked. -/
  | linked (fp : Addr) (making : (s.pc t).making = some fp) (after : p'.making = Option.none)
      (dropping : p'.dropping = (s.pc t).dropping)
      (links : s'.links = Function.update s.links fp (s.links fp + 1))
      (unlinks : s'.unlinks = s.unlinks) (destroys : s'.destroys = s.destroys)
  /-- A linked object is unlinked. -/
  | unlinked (fp : Addr) (was : Linked s fp) (making : p'.making = (s.pc t).making)
      (dropping : (s.pc t).dropping = Option.none) (after : p'.dropping = some fp)
      (links : s'.links = s.links)
      (unlinks : s'.unlinks = Function.update s.unlinks fp (s.unlinks fp + 1))
      (destroys : s'.destroys = s.destroys)
  /-- An unlinked object is destroyed. -/
  | destroyed (fp : Addr) (making : p'.making = (s.pc t).making)
      (dropping : (s.pc t).dropping = some fp) (after : p'.dropping = Option.none)
      (links : s'.links = s.links) (unlinks : s'.unlinks = s.unlinks)
      (destroys : s'.destroys = Function.update s.destroys fp (s.destroys fp + 1))

/-- What a step of another thread keeps for a thread that holds `hashlock`. -/
structure SameChains (chain : Fin nhash → List Addr) (s : State T) (act : Act) (s' : State T) :
    Prop where
  /-- `fh`. -/
  fh : s'.fh = s.fh
  /-- `f_next`. -/
  next : ∀ fp, (s'.foo fp).next = (s.foo fp).next
  /-- The chains. -/
  chains : chainAfter chain s act = chain
  /-- The links. -/
  linked : ∀ fp, Linked s' fp ↔ Linked s fp

/-- What a step does to the references to an object. -/
inductive Refers [Fintype T] (s s' : State T) (fp : Addr) : Prop where
  /-- Their number and the count stay. -/
  | kept (unlinks : s'.unlinks fp = s.unlinks fp) (total : total s' fp = total s fp)
      (count : (s'.foo fp).count = (s.foo fp).count)
  /-- One is added. -/
  | gained (alive : s.unlinks fp = 0) (there : s.lock fp ≠ .absent) (less : total s fp < intMax)
      (unlinks : s'.unlinks fp = s.unlinks fp) (total : total s' fp = total s fp + 1)
      (count : (s'.foo fp).count = (s.foo fp).count + 1)
  /-- One of several is removed. -/
  | lost (more : 1 < total s fp) (unlinks : s'.unlinks fp = s.unlinks fp)
      (total : total s' fp + 1 = total s fp) (count : (s'.foo fp).count = (s.foo fp).count - 1)
  /-- The last one is removed and the object is unlinked. -/
  | last (there : s.lock fp ≠ .absent) (unlinks : s'.unlinks fp = s.unlinks fp + 1)
      (total : total s' fp = 0)

/-- What holds between any two statements, with the chains of the hash table. -/
structure Inv [Fintype T] (chain : Fin nhash → List Addr) (s : State T) : Prop where
  /-- The owner of `hashlock` is in a section that needs it. -/
  hash : ∀ t, (s.pc t).hasHash = true ↔ s.hashlock = some t
  /-- The owner of a mutex is in a section that needs it. -/
  lock : ∀ t fp, (s.pc t).locked = some fp ↔ s.lock fp = .held t
  /-- There is no object at `NULL`. -/
  null : s.lock 0 = .absent
  /-- The chains follow `f_next`. -/
  paths : ∀ i, Path 0 (nextOf s) (s.fh i) (chain i)
  /-- The chains hold the linked objects. -/
  members : ∀ i fp, fp ∈ chain i ↔ Linked s fp ∧ s.idx fp = i
  /-- Where there is no object, there is no reference to it. -/
  absent : ∀ fp, s.lock fp = .absent → s.links fp = 0 ∧ ∀ t, held s t fp = 0
  /-- There is no reference to an object that was unlinked. -/
  gone : ∀ fp, s.unlinks fp ≠ 0 → ∀ t, held s t fp = 0
  /-- The count of an object that was not unlinked is the number of references to it. -/
  count : ∀ fp, s.lock fp ≠ .absent → s.unlinks fp = 0 → (s.foo fp).count = total s fp
  /-- There are references to an object that was not unlinked. -/
  positive : ∀ fp, s.lock fp ≠ .absent → s.unlinks fp = 0 → 0 < total s fp
  /-- The number of references to an object is an `int`. -/
  int : ∀ fp, total s fp ≤ intMax
  /-- Objects that are not linked yet are in order. -/
  making : Making s
  /-- Objects that are not destroyed yet are in order. -/
  dropping : Dropping s
  /-- The histories are in order. -/
  once : Once s
  /-- A destroyed mutex is one whose destruction was counted. -/
  destroyed : ∀ fp, s.lock fp = .destroyed → s.destroys fp ≠ 0
  /-- Every thread knows what it needs. -/
  known : ∀ t, Known chain s t (s.pc t)

variable [DecidableEq T] [Fintype T]

omit [DecidableEq T] in
/-- An object to which there is a reference exists and was not unlinked. -/
theorem Inv.alive (inv : Inv chain s) (some_ : 0 < held s t a) :
    s.lock a ≠ .absent ∧ s.unlinks a = 0 := by
  constructor
  · intro absent
    have none_ := (inv.absent a absent).2 t
    omega
  · by_contra gone
    have none_ := inv.gone a gone t
    omega

omit [DecidableEq T] [Fintype T] in
/-- A call that holds a reference on its own. -/
theorem held_pos (owned : (s.pc t).owned = some a) : 0 < held s t a := by
  simp [held, owned]

/-- `foo_alloc` holds the reference to its new object. -/
theorem owned_of_making (making : p.making = some a) : p.owned = some a := by
  cases p <;> cases making <;> rfl

omit [DecidableEq T] in
/-- An object to which the callers of a thread hold a reference was not unlinked. -/
theorem Inv.unlinks_of_refs (inv : Inv chain s) (some_ : 0 < s.refs t a) : s.unlinks a = 0 := by
  have held : 0 < held s t a := Nat.lt_of_lt_of_le some_ (Nat.le_add_right ..)
  exact (inv.alive held).2

omit [DecidableEq T] in
/-- A linked object exists and is not at `NULL`. -/
theorem Inv.linked_alive (inv : Inv chain s) (linked : Linked s a) :
    s.lock a ≠ .absent ∧ a ≠ 0 := by
  have present : s.lock a ≠ .absent := by
    intro absent
    have none_ := (inv.absent a absent).1
    have one := linked.1
    omega
  refine ⟨present, ?_⟩
  rintro rfl
  exact present inv.null

/-- The last reference to an object is one to a linked object, unless the object is new. -/
theorem Inv.linked_of_last (inv : Inv chain s) (owned : (s.pc t).owned = some a)
    (old : (s.pc t).making = none) (last : (s.foo a).count = 1) : Linked s a := by
  obtain ⟨present, kept⟩ := inv.alive (held_pos owned)
  refine ⟨?_, kept⟩
  by_contra notOne
  have once := inv.once a
  obtain ⟨u, new⟩ := inv.making.exists_maker a present (by omega)
  have other : t ≠ u := by
    rintro rfl
    rw [old] at new
    cases new
  have hers : (s.pc u).owned = some a := owned_of_making new
  -- the new object has one reference of its maker, and this thread has another
  have count := inv.count a present kept
  have two := held_add_le_total (s := s) (a := a) other
  have mine := held_pos owned
  have theirs := held_pos hers
  omega

omit [DecidableEq T] in
/-- A mutex that a thread is about to lock belongs to an object that was not unlinked. -/
theorem Inv.lock_alive (inv : Inv chain s) (now : (instr s (s.pc t)).1 = .lockFoo a) :
    s.unlinks a = 0 := by
  have known := inv.known t
  cases here : s.pc t with
  | allocLockFoo fp | releLock fp | releRelock fp =>
    rw [here] at now
    obtain rfl : fp = a := by simpa [instr] using now
    exact (inv.alive (held_pos (by rw [here]; rfl))).2
  | holdLock inFind fp =>
    rw [here] at now known
    obtain rfl : fp = a := by simpa [instr] using now
    cases inFind with
    | true => exact known.2
    | false => exact inv.unlinks_of_refs known
  | holdUnlock inFind fp =>
    rw [here] at now
    cases inFind <;> simp [instr] at now
  | findTest _ _ | releTest _ | releRetest _ | releSearch _ | releLoop _ _ =>
    rw [here] at now
    unfold instr at now
    dsimp only at now
    split_ifs at now
  | _ =>
    rw [here] at now
    simp [instr] at now

omit [DecidableEq T] in
/-- A thread knows what its next statement needs. -/
theorem Inv.before (inv : Inv chain s) (t : T) : Before chain s (instr s (s.pc t)).1 := by
  have known := inv.known t
  have alive : ∀ fp, (instr s (s.pc t)).1 = .lockFoo fp → s.unlinks fp = 0 := fun _ now =>
    inv.lock_alive now
  cases here : s.pc t with
  | holdUnlock inFind fp => cases inFind <;> trivial
  | holdCount inFind fp =>
    rw [here] at known
    cases inFind with
    | true => exact known.2
    | false => exact inv.unlinks_of_refs known
  | allocLockFoo fp | releLock fp | releRelock fp | holdLock _ fp =>
    exact alive fp (by rw [here]; rfl)
  | findTest _ _ | releTest _ | releRetest _ | releSearch _ | releLoop _ _ =>
    unfold instr
    dsimp only
    split_ifs <;> trivial
  | allocHead _ | releDecr _ | releDecrAgain _ | releUnlinkHead _ | releUnlinkAfter _ _
  | releDestroy _ =>
    rw [here] at known
    exact known
  | _ => trivial

end Invariant

end CodeLearning.Threads.RefCount
