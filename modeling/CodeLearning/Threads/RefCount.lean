import CodeLearning.Lib.CInt
import CodeLearning.Lib.LinkedList
import Mathlib.Algebra.Ring.Int.Defs
import Mathlib.Logic.Relation

/-!
# Reference counting with two locks

Threads share objects that a hash table links: `foo_alloc` makes and links one, `foo_find` looks
one up and takes a reference, `foo_hold` takes one more and `foo_rele` gives one up. Each lock,
unlock and access is one step of a thread, and threads take their steps in any order. A program
counter says which statement of which function comes next, with the values of its variables. A
count is of type `int`, and wraps when it leaves the range.
-/

namespace CodeLearning.Threads.RefCount

open CInt

/-- An address; `0` is `NULL`. -/
abbrev Addr := Nat

/-- `NHASH`. -/
def nhash : Nat := 29

/-- `HASH`: the value as `unsigned long`, modulo `NHASH`. -/
def hash (id : Int) : Fin nhash :=
  ⟨(id % 2 ^ 64).toNat % nhash, Nat.mod_lt _ (by decide)⟩

/-- `struct foo` without its mutex. -/
structure Foo where
  /-- `f_count`. -/
  count : Int
  /-- `f_id`. -/
  id : Int
  /-- `f_next`. -/
  next : Addr

/-- State of the mutex at an address. -/
inductive Mutex (T : Type) where
  /-- There is no object. -/
  | absent
  /-- Initialised and not locked. -/
  | free
  /-- Locked by a thread. -/
  | held (t : T)
  /-- Destroyed. -/
  | destroyed
deriving DecidableEq

/-- The next statement of a thread. -/
inductive Pc where
  /-- The thread is in none of the functions. -/
  | idle
  /-- `foo_alloc`: lock `hashlock`. -/
  | allocLock (fp : Addr)
  /-- `foo_alloc`: set `f_next`. -/
  | allocNext (fp : Addr)
  /-- `foo_alloc`: set `fh[idx]`. -/
  | allocHead (fp : Addr)
  /-- `foo_alloc`: lock `f_lock`. -/
  | allocLockFoo (fp : Addr)
  /-- `foo_alloc`: unlock `hashlock`. -/
  | allocUnlock (fp : Addr)
  /-- `foo_alloc`: unlock `f_lock` and return. -/
  | allocUnlockFoo (fp : Addr)
  /-- `foo_hold`, called by `foo_find` or not: lock `f_lock`. -/
  | holdLock (inFind : Bool) (fp : Addr)
  /-- `foo_hold`: increment `f_count`. -/
  | holdCount (inFind : Bool) (fp : Addr)
  /-- `foo_hold`: unlock `f_lock` and return. -/
  | holdUnlock (inFind : Bool) (fp : Addr)
  /-- `foo_find`: lock `hashlock`. -/
  | findLock (id : Int)
  /-- `foo_find`: read `fh[HASH(id)]`. -/
  | findHead (id : Int)
  /-- `foo_find`: test `fp` and `f_id`. -/
  | findTest (id : Int) (fp : Addr)
  /-- `foo_find`: read `f_next`. -/
  | findNext (id : Int) (fp : Addr)
  /-- `foo_find`: unlock `hashlock` and return what was found. -/
  | findUnlock (found : Option Addr)
  /-- `foo_rele`: lock `f_lock`. -/
  | releLock (fp : Addr)
  /-- `foo_rele`: test `f_count == 1`. -/
  | releTest (fp : Addr)
  /-- `foo_rele`, more references: decrement `f_count`. -/
  | releDecr (fp : Addr)
  /-- `foo_rele`, more references: unlock `f_lock` and return. -/
  | releUnlock (fp : Addr)
  /-- `foo_rele`, last reference: unlock `f_lock`. -/
  | releOpen (fp : Addr)
  /-- `foo_rele`, last reference: lock `hashlock`. -/
  | releHash (fp : Addr)
  /-- `foo_rele`, last reference: lock `f_lock` again. -/
  | releRelock (fp : Addr)
  /-- `foo_rele`, last reference: test `f_count != 1`. -/
  | releRetest (fp : Addr)
  /-- `foo_rele`, not the last reference any more: decrement `f_count`. -/
  | releDecrAgain (fp : Addr)
  /-- `foo_rele`, not the last reference any more: unlock `f_lock`. -/
  | releUnlockAgain (fp : Addr)
  /-- `foo_rele`, not the last reference any more: unlock `hashlock` and return. -/
  | releUnlockHash (fp : Addr)
  /-- `foo_rele`, last reference: read `fh[idx]` and compare it with `fp`. -/
  | releSearch (fp : Addr)
  /-- `foo_rele`, last reference: unlink the first object. -/
  | releUnlinkHead (fp : Addr)
  /-- `foo_rele`, last reference: the loop that looks for the object before `fp`. -/
  | releLoop (fp tfp : Addr)
  /-- `foo_rele`, last reference: unlink the object after `tfp`. -/
  | releUnlinkAfter (fp tfp : Addr)
  /-- `foo_rele`, last reference: unlock `hashlock`. -/
  | releFreeHash (fp : Addr)
  /-- `foo_rele`, last reference: unlock `f_lock`. -/
  | releFreeLock (fp : Addr)
  /-- `foo_rele`, last reference: destroy the mutex and return. -/
  | releDestroy (fp : Addr)
  /-- The loop of `foo_rele` dereferenced `NULL`. -/
  | crashed (fp : Addr)
deriving DecidableEq

/-- What one step does to the shared data. -/
inductive Act where
  /-- Nothing. -/
  | look
  /-- Lock `hashlock`. -/
  | lockHash
  /-- Unlock `hashlock`. -/
  | unlockHash
  /-- Lock the mutex of an object. -/
  | lockFoo (fp : Addr)
  /-- Unlock the mutex of an object. -/
  | unlockFoo (fp : Addr)
  /-- `f_count++`. -/
  | incr (fp : Addr)
  /-- `f_count--`. -/
  | decr (fp : Addr)
  /-- `fp->f_next = fh[idx]`. -/
  | setNext (fp : Addr)
  /-- `fh[idx] = fp`. -/
  | setHead (fp : Addr)
  /-- `fh[idx] = fp->f_next`. -/
  | unlinkHead (fp : Addr)
  /-- `tfp->f_next = fp->f_next`. -/
  | unlinkAfter (fp tfp : Addr)
  /-- `pthread_mutex_destroy`. -/
  | destroy (fp : Addr)
deriving DecidableEq

section Machine

variable {T : Type} [DecidableEq T]

/-- The shared data and the threads, with a history of the objects. -/
structure State (T : Type) where
  /-- The objects. -/
  foo : Addr → Foo
  /-- `fh`. -/
  fh : Fin nhash → Addr
  /-- The owner of `hashlock`. -/
  hashlock : Option T
  /-- The mutexes of the objects. -/
  lock : Addr → Mutex T
  /-- The next statement of each thread. -/
  pc : T → Pc
  /-- How many references to an object the callers of a thread hold. -/
  refs : T → Addr → Nat
  /-- How often an object was linked. -/
  links : Addr → Nat
  /-- How often an object was unlinked. -/
  unlinks : Addr → Nat
  /-- How often the mutex of an object was destroyed. -/
  destroys : Addr → Nat

/-- The bucket of an object. -/
def State.idx (s : State T) (fp : Addr) : Fin nhash := hash (s.foo fp).id

/-- The next step of a thread that is in one of the functions, and the statement after it. -/
def instr (s : State T) : Pc → Act × Pc
  | .idle => (.look, .idle)
  | .allocLock fp => (.lockHash, .allocNext fp)
  | .allocNext fp => (.setNext fp, .allocHead fp)
  | .allocHead fp => (.setHead fp, .allocLockFoo fp)
  | .allocLockFoo fp => (.lockFoo fp, .allocUnlock fp)
  | .allocUnlock fp => (.unlockHash, .allocUnlockFoo fp)
  | .allocUnlockFoo fp => (.unlockFoo fp, .idle)
  | .holdLock inFind fp => (.lockFoo fp, .holdCount inFind fp)
  | .holdCount inFind fp => (.incr fp, .holdUnlock inFind fp)
  | .holdUnlock true fp => (.unlockFoo fp, .findUnlock (some fp))
  | .holdUnlock false fp => (.unlockFoo fp, .idle)
  | .findLock id => (.lockHash, .findHead id)
  | .findHead id => (.look, .findTest id (s.fh (hash id)))
  | .findTest id fp =>
    if fp = 0 then (.look, .findUnlock none)
    else if (s.foo fp).id = id then (.look, .holdLock true fp)
    else (.look, .findNext id fp)
  | .findNext id fp => (.look, .findTest id (s.foo fp).next)
  | .findUnlock _ => (.unlockHash, .idle)
  | .releLock fp => (.lockFoo fp, .releTest fp)
  | .releTest fp => if (s.foo fp).count = 1 then (.look, .releOpen fp) else (.look, .releDecr fp)
  | .releDecr fp => (.decr fp, .releUnlock fp)
  | .releUnlock fp => (.unlockFoo fp, .idle)
  | .releOpen fp => (.unlockFoo fp, .releHash fp)
  | .releHash fp => (.lockHash, .releRelock fp)
  | .releRelock fp => (.lockFoo fp, .releRetest fp)
  | .releRetest fp =>
    if (s.foo fp).count ≠ 1 then (.look, .releDecrAgain fp) else (.look, .releSearch fp)
  | .releDecrAgain fp => (.decr fp, .releUnlockAgain fp)
  | .releUnlockAgain fp => (.unlockFoo fp, .releUnlockHash fp)
  | .releUnlockHash _ => (.unlockHash, .idle)
  | .releSearch fp =>
    if s.fh (s.idx fp) = fp then (.look, .releUnlinkHead fp)
    else (.look, .releLoop fp (s.fh (s.idx fp)))
  | .releUnlinkHead fp => (.unlinkHead fp, .releFreeHash fp)
  | .releLoop fp tfp =>
    if tfp = 0 then (.look, .crashed fp)
    else if (s.foo tfp).next ≠ fp then (.look, .releLoop fp (s.foo tfp).next)
    else (.look, .releUnlinkAfter fp tfp)
  | .releUnlinkAfter fp tfp => (.unlinkAfter fp tfp, .releFreeHash fp)
  | .releFreeHash fp => (.unlockHash, .releFreeLock fp)
  | .releFreeLock fp => (.unlockFoo fp, .releDestroy fp)
  | .releDestroy fp => (.destroy fp, .idle)
  | .crashed fp => (.look, .crashed fp)

/-- A thread waits for a lock until it is free. -/
def Enabled (s : State T) : Act → Prop
  | .lockHash => s.hashlock = none
  | .lockFoo fp => s.lock fp = .free
  | _ => True

/-- Whether a statement can be executed can be decided. -/
instance (s : State T) (act : Act) : Decidable (Enabled s act) :=
  match act with
  | .lockHash => inferInstanceAs (Decidable (s.hashlock = none))
  | .lockFoo fp => inferInstanceAs (Decidable (s.lock fp = .free))
  | .look => isTrue trivial
  | .unlockHash => isTrue trivial
  | .unlockFoo _ => isTrue trivial
  | .incr _ => isTrue trivial
  | .decr _ => isTrue trivial
  | .setNext _ => isTrue trivial
  | .setHead _ => isTrue trivial
  | .unlinkHead _ => isTrue trivial
  | .unlinkAfter .. => isTrue trivial
  | .destroy _ => isTrue trivial

/-- The object at an address is changed. -/
def State.setFoo (s : State T) (fp : Addr) (value : Foo) : State T :=
  { s with foo := Function.update s.foo fp value }

/-- The effect of a step on the shared data. -/
def perform (s : State T) (t : T) : Act → State T
  | .look => s
  | .lockHash => { s with hashlock := some t }
  | .unlockHash => { s with hashlock := none }
  | .lockFoo fp => { s with lock := Function.update s.lock fp (.held t) }
  | .unlockFoo fp => { s with lock := Function.update s.lock fp .free }
  | .incr fp => s.setFoo fp { s.foo fp with count := wrap ((s.foo fp).count + 1) }
  | .decr fp => s.setFoo fp { s.foo fp with count := wrap ((s.foo fp).count - 1) }
  | .setNext fp => s.setFoo fp { s.foo fp with next := s.fh (s.idx fp) }
  | .setHead fp =>
    { s with
      fh := Function.update s.fh (s.idx fp) fp
      links := Function.update s.links fp (s.links fp + 1) }
  | .unlinkHead fp =>
    { s with
      fh := Function.update s.fh (s.idx fp) (s.foo fp).next
      unlinks := Function.update s.unlinks fp (s.unlinks fp + 1) }
  | .unlinkAfter fp tfp =>
    { s.setFoo tfp { s.foo tfp with next := (s.foo fp).next } with
      unlinks := Function.update s.unlinks fp (s.unlinks fp + 1) }
  | .destroy fp =>
    { s with
      lock := Function.update s.lock fp .destroyed
      destroys := Function.update s.destroys fp (s.destroys fp + 1) }

/-- The reference that a call holds on its own: the one it was given to release, or the one it
will return. -/
def Pc.owned : Pc → Option Addr
  | .allocLock fp => some fp
  | .allocNext fp => some fp
  | .allocHead fp => some fp
  | .allocLockFoo fp => some fp
  | .allocUnlock fp => some fp
  | .allocUnlockFoo fp => some fp
  | .holdUnlock _ fp => some fp
  | .findUnlock found => found
  | .releLock fp => some fp
  | .releTest fp => some fp
  | .releDecr fp => some fp
  | .releOpen fp => some fp
  | .releHash fp => some fp
  | .releRelock fp => some fp
  | .releRetest fp => some fp
  | .releDecrAgain fp => some fp
  | .releSearch fp => some fp
  | .releUnlinkHead fp => some fp
  | .releLoop fp _ => some fp
  | .releUnlinkAfter fp _ => some fp
  | .crashed fp => some fp
  | _ => none

/-- The references of the callers when a call of thread `t` ends with the reference. -/
def State.given (s : State T) (t : T) : Option Addr → T → Addr → Nat
  | none => s.refs
  | some fp => Function.update s.refs t (Function.update (s.refs t) fp (s.refs t fp + 1))

/-- A thread goes on to another statement; a call that returns hands its reference over. -/
def State.goTo (s : State T) (t : T) (pc : Pc) : State T :=
  { s with
    refs := if pc = .idle then s.given t (s.pc t).owned else s.refs
    pc := Function.update s.pc t pc }

/-- What a thread does next. -/
inductive Move where
  /-- It calls `foo_alloc`, which gets an object from `malloc` or not. -/
  | alloc (id : Int) (result : Option Addr)
  /-- It calls `foo_find`. -/
  | find (id : Int)
  /-- It calls `foo_hold` on a reference it holds. -/
  | hold (fp : Addr)
  /-- It calls `foo_rele` on a reference it holds. -/
  | rele (fp : Addr)
  /-- It executes its next statement. -/
  | run
deriving DecidableEq

/-- A thread that is in none of the functions calls one. A thread calls `foo_hold` and `foo_rele`
only on references it holds, and `malloc` returns new addresses. -/
def call (s : State T) (t : T) : Move → State T
  | .alloc id (some fp) =>
    if fp ≠ 0 ∧ s.lock fp = .absent then
      { s with
        foo := Function.update s.foo fp ⟨1, id, (s.foo fp).next⟩
        lock := Function.update s.lock fp .free
        pc := Function.update s.pc t (.allocLock fp) }
    else s
  | .alloc _ none => s
  | .find id => { s with pc := Function.update s.pc t (.findLock id) }
  | .hold fp =>
    if 0 < s.refs t fp then { s with pc := Function.update s.pc t (.holdLock false fp) } else s
  | .rele fp =>
    if 0 < s.refs t fp then
      { s with
        refs := Function.update s.refs t (Function.update (s.refs t) fp (s.refs t fp - 1))
        pc := Function.update s.pc t (.releLock fp) }
    else s
  | .run => s

/-- One step of a thread. -/
def step (s : State T) (t : T) (move : Move) : State T :=
  if s.pc t = .idle then call s t move
  else if move = .run ∧ Enabled s (instr s (s.pc t)).1 then
    (perform s t (instr s (s.pc t)).1).goTo t (instr s (s.pc t)).2
  else s

/-- Steps of the threads, in any order. -/
def run (s : State T) (moves : List (T × Move)) : State T :=
  moves.foldl (fun s move => step s move.1 move.2) s

/-- No object, no thread in a function; the memory holds anything. -/
def start (memory : Addr → Foo) : State T where
  foo := memory
  fh := fun _ => 0
  hashlock := none
  lock := fun _ => .absent
  pc := fun _ => .idle
  refs := fun _ _ => 0
  links := fun _ => 0
  unlinks := fun _ => 0
  destroys := fun _ => 0

/-- How many references to an object a thread holds, with the one of its call. -/
def held (s : State T) (t : T) (fp : Addr) : Nat :=
  s.refs t fp + if (s.pc t).owned = some fp then 1 else 0

/-- Thread `t` waits for a mutex that thread `u` holds. -/
def Waits (s : State T) (t u : T) : Prop :=
  ((instr s (s.pc t)).1 = .lockHash ∧ s.hashlock = some u) ∨
    ∃ fp, (instr s (s.pc t)).1 = .lockFoo fp ∧ s.lock fp = .held u

/-! ## What the program counter says -/

/-- The thread holds `hashlock`. -/
def Pc.hasHash : Pc → Bool
  | .allocNext _ => true
  | .allocHead _ => true
  | .allocLockFoo _ => true
  | .allocUnlock _ => true
  | .holdLock inFind _ => inFind
  | .holdCount inFind _ => inFind
  | .holdUnlock inFind _ => inFind
  | .findHead _ => true
  | .findTest .. => true
  | .findNext .. => true
  | .findUnlock _ => true
  | .releRelock _ => true
  | .releRetest _ => true
  | .releDecrAgain _ => true
  | .releUnlockAgain _ => true
  | .releUnlockHash _ => true
  | .releSearch _ => true
  | .releUnlinkHead _ => true
  | .releLoop .. => true
  | .releUnlinkAfter .. => true
  | .releFreeHash _ => true
  | .crashed _ => true
  | _ => false

/-- The object whose mutex the thread holds. -/
def Pc.locked : Pc → Option Addr
  | .allocUnlock fp => some fp
  | .allocUnlockFoo fp => some fp
  | .holdCount _ fp => some fp
  | .holdUnlock _ fp => some fp
  | .releTest fp => some fp
  | .releDecr fp => some fp
  | .releUnlock fp => some fp
  | .releOpen fp => some fp
  | .releRetest fp => some fp
  | .releDecrAgain fp => some fp
  | .releUnlockAgain fp => some fp
  | .releSearch fp => some fp
  | .releUnlinkHead fp => some fp
  | .releLoop fp _ => some fp
  | .releUnlinkAfter fp _ => some fp
  | .releFreeHash fp => some fp
  | .releFreeLock fp => some fp
  | .crashed fp => some fp
  | _ => none

/-- The object that `foo_alloc` has not linked yet. -/
def Pc.making : Pc → Option Addr
  | .allocLock fp => some fp
  | .allocNext fp => some fp
  | .allocHead fp => some fp
  | _ => none

/-- The object that `foo_rele` has unlinked and whose mutex it has not destroyed yet. -/
def Pc.dropping : Pc → Option Addr
  | .releFreeHash fp => some fp
  | .releFreeLock fp => some fp
  | .releDestroy fp => some fp
  | _ => none

/-- The thread is in a critical section. -/
def Pc.Critical (pc : Pc) : Prop := pc.hasHash = true ∨ pc.locked ≠ none

end Machine

end CodeLearning.Threads.RefCount
