import CodeLearning.Lib.LinkedList
import CodeLearning.Lib.Machine
import Mathlib.Algebra.BigOperators.Group.Finset.Basic
import Mathlib.Algebra.Order.BigOperators.Group.Finset

/-!
# A work queue with a condition variable

Threads pass messages over a linked stack: `enqueue_msg` links one and signals the condition,
`process_msg` takes them out, one in each turn of its loop, and waits on the condition while there
is none. Each lock, unlock, access and signal is one step of a thread, and threads take their steps
in any order. A signal may wake more than one thread that waits, and a thread may wake up without a
signal.
-/

namespace CodeLearning.Threads.WorkQueue

open LinkedList

/-- An address; `0` is `NULL`. -/
abbrev Addr := Nat

/-- The next statement of a thread. -/
inductive Pc where
  /-- The thread is in none of the functions. -/
  | idle
  /-- `enqueue_msg`: lock `qlock`. -/
  | enqueueLock (mp : Addr)
  /-- `enqueue_msg`: set `m_next`. -/
  | enqueueNext (mp : Addr)
  /-- `enqueue_msg`: set `workq`. -/
  | enqueueHead (mp : Addr)
  /-- `enqueue_msg`: unlock `qlock`. -/
  | enqueueUnlock
  /-- `enqueue_msg`: signal `qready` and return. -/
  | enqueueSignal
  /-- `process_msg`: lock `qlock`. -/
  | processLock
  /-- `process_msg`: test `workq == NULL`. -/
  | processTest
  /-- `process_msg`: call `pthread_cond_wait`. -/
  | processWait
  /-- `pthread_cond_wait`: blocked, without the mutex. -/
  | asleep
  /-- `pthread_cond_wait`: woken, locks `qlock` again and returns. -/
  | relock
  /-- `process_msg`: read `workq`. -/
  | processTake
  /-- `process_msg`: set `workq` to `mp->m_next`. -/
  | processUnlink (mp : Addr)
  /-- `process_msg`: unlock `qlock`. -/
  | processUnlock
  /-- `NULL` was dereferenced. -/
  | crashed
deriving DecidableEq

/-- The thread has locked `qlock`. -/
def Pc.locked : Pc → Bool
  | .enqueueNext _ => true
  | .enqueueHead _ => true
  | .enqueueUnlock => true
  | .processTest => true
  | .processWait => true
  | .processTake => true
  | .processUnlink _ => true
  | .processUnlock => true
  | _ => false

/-- The message that `enqueue_msg` was passed and has not linked yet. -/
def Pc.handing : Pc → Option Addr
  | .enqueueLock mp => some mp
  | .enqueueNext mp => some mp
  | .enqueueHead mp => some mp
  | _ => none

/-- The thread is in `process_msg`. -/
def Pc.serving : Pc → Bool
  | .processLock => true
  | .processTest => true
  | .processWait => true
  | .asleep => true
  | .relock => true
  | .processTake => true
  | .processUnlink _ => true
  | .processUnlock => true
  | _ => false

/-- The thread will look at the queue, or signal. -/
def Pc.alert : Pc → Bool
  | .enqueueUnlock => true
  | .enqueueSignal => true
  | .processLock => true
  | .processTest => true
  | .relock => true
  | .processTake => true
  | .processUnlink _ => true
  | .processUnlock => true
  | _ => false

/-- The shared data and the threads, with a history of the messages. -/
structure State (T : Type) where
  /-- `m_next` of the messages. -/
  next : Addr → Addr
  /-- `workq`. -/
  workq : Addr
  /-- The owner of `qlock`. -/
  qlock : Option T
  /-- The next statement of each thread. -/
  pc : T → Pc
  /-- The messages that were passed to `enqueue_msg`. -/
  passed : List Addr
  /-- The messages that `process_msg` has taken. -/
  taken : List Addr

/-- What happens next. -/
inductive Event (T : Type) where
  /-- A thread calls `enqueue_msg`. -/
  | enqueue (t : T) (mp : Addr)
  /-- A thread calls `process_msg`. -/
  | process (t : T)
  /-- A thread executes its next statement, which is no signal. -/
  | run (t : T)
  /-- A thread signals `qready`, and the threads are woken. -/
  | signal (t : T) (woken : List T)
  /-- A thread wakes up without a signal. -/
  | wake (t : T)
deriving DecidableEq

/-- The event is a step of the functions: no call, and no thread wakes up by itself. -/
def Event.Internal {T : Type} : Event T → Prop
  | .run _ => True
  | .signal _ _ => True
  | _ => False

section Machine

variable {T : Type} [DecidableEq T] [Fintype T]

/-- A thread goes on to another statement. -/
def State.goTo (s : State T) (t : T) (pc : Pc) : State T :=
  { s with pc := Function.update s.pc t pc }

/-- A thread locks `qlock`; it waits until the mutex is free. -/
def State.lock (s : State T) (t : T) (pc : Pc) : Option (State T) :=
  if s.qlock = none then some { s.goTo t pc with qlock := some t } else none

/-- A thread unlocks `qlock`. -/
def State.unlock (s : State T) (t : T) (pc : Pc) : State T := { s.goTo t pc with qlock := none }

/-- A thread executes its next statement. -/
def runStep (s : State T) (t : T) : Option (State T) :=
  match s.pc t with
  | .enqueueLock mp => s.lock t (.enqueueNext mp)
  | .enqueueNext mp =>
    if mp = 0 then some (s.goTo t .crashed)
    else some { s.goTo t (.enqueueHead mp) with next := Function.update s.next mp s.workq }
  | .enqueueHead mp => some { s.goTo t .enqueueUnlock with workq := mp }
  | .enqueueUnlock => some (s.unlock t .enqueueSignal)
  | .processLock => s.lock t .processTest
  | .processTest => some (s.goTo t (if s.workq = 0 then .processWait else .processTake))
  -- The mutex is given up and the thread blocks in one step.
  | .processWait => some (s.unlock t .asleep)
  | .relock => s.lock t .processTest
  | .processTake => some (s.goTo t (.processUnlink s.workq))
  | .processUnlink mp =>
    if mp = 0 then some (s.goTo t .crashed)
    else some { s.goTo t .processUnlock with workq := s.next mp, taken := s.taken ++ [mp] }
  | .processUnlock => some (s.unlock t .processLock)
  | .idle | .enqueueSignal | .asleep | .crashed => none

/-- The statements of the threads after a signal of `t`. -/
def signalled (pc : T → Pc) (t : T) (woken : List T) (u : T) : Pc :=
  if u = t then .idle else if u ∈ woken then .relock else pc u

/-- One event. A caller passes a message that is not `NULL` and that was taken as often as it was
passed before; a signal wakes at least one thread if any waits. -/
def step (s : State T) : Event T → Option (State T)
  | .enqueue t mp =>
    if s.pc t = .idle ∧ mp ≠ 0 ∧ s.passed.count mp = s.taken.count mp then
      some { s.goTo t (.enqueueLock mp) with passed := s.passed ++ [mp] }
    else none
  | .process t => if s.pc t = .idle then some (s.goTo t .processLock) else none
  | .run t => runStep s t
  | .signal t woken =>
    if s.pc t = .enqueueSignal ∧ (∀ u ∈ woken, s.pc u = .asleep) ∧
        (woken = [] → ∀ u, s.pc u ≠ .asleep) then
      some { s with pc := signalled s.pc t woken }
    else none
  | .wake t => if s.pc t = .asleep then some (s.goTo t .relock) else none

/-- No thread in a function and no message; the memory holds anything. -/
def start (memory : Addr → Addr) : State T where
  next := memory
  workq := 0
  qlock := none
  pc _ := .idle
  passed := []
  taken := []

/-! ## Sums over the threads -/

section Weigh

variable {pc : T → Pc} {t : T}

/-- A number for each statement, summed over the threads. -/
def weigh (f : Pc → Nat) (pc : T → Pc) : Nat := ∑ t, f (pc t)

/-- When one thread goes on, the sum changes by its numbers. -/
theorem weigh_update (f : Pc → Nat) (pc : T → Pc) (t : T) (p : Pc) :
    weigh f (Function.update pc t p) + f (pc t) = weigh f pc + f p := by
  have others : ∀ u ∈ Finset.univ.erase t, f (Function.update pc t p u) = f (pc u) := by
    intro u mem
    rw [Function.update_of_ne (Finset.ne_of_mem_erase mem)]
  rw [weigh, weigh, ← Finset.add_sum_erase _ _ (Finset.mem_univ t),
    ← Finset.add_sum_erase _ (fun u => f (pc u)) (Finset.mem_univ t), Finset.sum_congr rfl others,
    Function.update_self]
  omega

omit [DecidableEq T] in
/-- A sum where no thread has more than before by more than a constant. -/
theorem weigh_le {f : Pc → Nat} {pc' : T → Pc} {c : Nat}
    (more : ∀ u, f (pc' u) ≤ f (pc u) + c) :
    weigh f pc' ≤ weigh f pc + c * Fintype.card T := by
  calc weigh f pc' ≤ ∑ u, (f (pc u) + c) := Finset.sum_le_sum fun u _ => more u
    _ = weigh f pc + c * Fintype.card T := by
      rw [Finset.sum_add_distrib, Finset.sum_const, Finset.card_univ, Nat.nsmul_eq_mul,
        Nat.mul_comm]
      rfl

omit [DecidableEq T] in
/-- One thread counts in the sum. -/
theorem le_weigh (f : Pc → Nat) (pc : T → Pc) (t : T) : f (pc t) ≤ weigh f pc :=
  Finset.single_le_sum (f := fun u => f (pc u)) (fun _ _ => Nat.zero_le _) (Finset.mem_univ t)

omit [Fintype T] in
/-- The threads after a signal, as one change after the other. -/
theorem signalled_eq (pc : T → Pc) (t : T) (woken : List T) :
    signalled pc t woken =
      Function.update (fun u => if u ∈ woken then Pc.relock else pc u) t .idle := by
  funext u
  by_cases self : u = t
  · rw [self, Function.update_self, signalled, if_pos rfl]
  · rw [Function.update_of_ne self, signalled, if_neg self]

end Weigh

/-! ## The invariant -/

/-- One for a thread that was passed the message and has not linked it yet. -/
def Pc.hands (mp : Addr) (pc : Pc) : Nat := if pc.handing = some mp then 1 else 0

/-- The queue holds the messages of the list, the last one linked first. -/
def Queue (s : State T) (l : List Addr) : Prop := Path 0 (fun mp => some (s.next mp)) s.workq l

/-- What a thread knows at a statement. -/
def Known (l : List Addr) (s : State T) : Pc → Prop
  | .enqueueHead mp => s.next mp = s.workq
  | .processWait => l = []
  | .processTake => l ≠ []
  | .processUnlink mp => mp = s.workq ∧ mp ≠ 0
  | .crashed => False
  | _ => True

/-- What holds between any two steps. -/
structure Inv (l : List Addr) (s : State T) : Prop where
  /-- The queue. -/
  queue : Queue s l
  /-- The mutex is locked by the thread that is between lock and unlock. -/
  owner : ∀ t, (s.pc t).locked = true ↔ s.qlock = some t
  /-- Each pass of a message is taken, in the queue, or not linked yet. -/
  count : ∀ mp, s.passed.count mp =
    s.taken.count mp + l.count mp + weigh (Pc.hands mp) s.pc
  /-- A message is in one place. -/
  once : ∀ mp, l.count mp + weigh (Pc.hands mp) s.pc ≤ 1
  /-- A message that is passed is not `NULL`. -/
  real : ∀ t mp, (s.pc t).handing = some mp → mp ≠ 0
  /-- What the threads know. -/
  known : ∀ t, Known l s (s.pc t)
  /-- While there is a message and a thread to process it, a thread will look or signal. -/
  alert : l ≠ [] → ∀ t, (s.pc t).serving = true → ∃ u, (s.pc u).alert = true

section Steps

variable {s s' : State T} {t u : T} {l l' : List Addr} {p : Pc} {mp : Addr} {memory : Addr → Addr}
  {woken : List T} {event : Event T}

omit [DecidableEq T] in
/-- The empty queue of the start. -/
theorem start_inv (memory : Addr → Addr) : Inv [] (start (T := T) memory) := by
  have none_ : ∀ mp, weigh (Pc.hands mp) (start (T := T) memory).pc = 0 := fun mp =>
    Finset.sum_eq_zero fun _ _ => rfl
  refine ⟨rfl, ?_, ?_, ?_, ?_, ?_, fun some_ => absurd rfl some_⟩
  · intro t
    simp [start, Pc.locked]
  · intro mp
    rw [none_]
    rfl
  · intro mp
    rw [none_]
    exact Nat.zero_le 1
  · intro t mp isHanding
    cases isHanding
  · intro t
    trivial

omit [DecidableEq T] [Fintype T] in
/-- What a thread that has not locked the mutex knows does not depend on the queue. -/
theorem Known.unlocked (known : Known l s p) (unlocked : p.locked = false) : Known l' s' p := by
  cases p with
  | crashed => exact known
  | enqueueHead _ | processWait | processTake | processUnlink _ => cases unlocked
  | _ => trivial

omit [DecidableEq T] [Fintype T] in
/-- What a thread knows depends on the queue alone. -/
theorem Known.congr (known : Known l s p) (next : s'.next = s.next) (workq : s'.workq = s.workq) :
    Known l s' p := by
  cases p with
  | enqueueHead mp =>
    rw [Known, next, workq]
    exact known
  | processUnlink mp =>
    rw [Known, workq]
    exact known
  | _ => exact known

omit [DecidableEq T] in
/-- A thread that is the only one to have locked the mutex. -/
theorem Inv.others_unlocked (inv : Inv l s) (locked : (s.pc t).locked = true) (other : u ≠ t) :
    (s.pc u).locked = false := by
  have mine := (inv.owner t).mp locked
  cases both : (s.pc u).locked with
  | false => rfl
  | true =>
    have theirs := (inv.owner u).mp both
    rw [mine] at theirs
    exact absurd (Option.some.inj theirs).symm other

/-- A message stays in one place when its thread or the queue gives it up for the other. -/
theorem Inv.once_of_le (inv : Inv l s)
    (less : ∀ mp, l'.count mp + p.hands mp ≤ l.count mp + (s.pc t).hands mp) (mp : Addr) :
    l'.count mp + weigh (Pc.hands mp) (Function.update s.pc t p) ≤ 1 := by
  have change := weigh_update (Pc.hands mp) s.pc t p
  have before := inv.once mp
  have fewer := less mp
  omega

/-- A thread goes on; what it does to the queue and the mutex keeps the invariant if it moves
messages from one place to the next and leaves alone what others know. -/
theorem Inv.move (inv : Inv l s) (pc : s'.pc = Function.update s.pc t p) (queue : Queue s' l')
    (own : p.locked = true ↔ s'.qlock = some t)
    (others : ∀ u, u ≠ t → (s.qlock = some u ↔ s'.qlock = some u))
    (flow : ∀ mp, s.passed.count mp + (s'.taken.count mp + l'.count mp + p.hands mp) =
      s'.passed.count mp + (s.taken.count mp + l.count mp + (s.pc t).hands mp))
    (once : ∀ mp, l'.count mp + weigh (Pc.hands mp) (Function.update s.pc t p) ≤ 1)
    (real : ∀ mp, p.handing = some mp → mp ≠ 0)
    (known : Known l' s' p) (keep : ∀ u, u ≠ t → Known l' s' (s.pc u))
    (alert : l' = [] ∨ p.alert = true ∨
      (l' = l ∧ (s.pc t).alert = false ∧ (p.serving = true → (s.pc t).serving = true))) :
    Inv l' s' := by
  have weight : ∀ mp, weigh (Pc.hands mp) s'.pc + (s.pc t).hands mp =
      weigh (Pc.hands mp) s.pc + p.hands mp := by
    intro mp
    rw [pc]
    exact weigh_update (Pc.hands mp) s.pc t p
  have self : s'.pc t = p := by rw [pc, Function.update_self]
  have other : ∀ u, u ≠ t → s'.pc u = s.pc u := fun u differs => by
    rw [pc, Function.update_of_ne differs]
  refine ⟨queue, ?_, ?_, ?_, ?_, ?_, ?_⟩
  · intro u
    by_cases same : u = t
    · rw [same, self]
      exact own
    · rw [other u same, ← others u same]
      exact inv.owner u
  · intro mp
    have before := inv.count mp
    have change := weight mp
    have moved := flow mp
    omega
  · intro mp
    rw [pc]
    exact once mp
  · intro u mp
    by_cases same : u = t
    · rw [same, self]
      exact real mp
    · rw [other u same]
      exact inv.real u mp
  · intro u
    by_cases same : u = t
    · rw [same, self]
      exact known
    · rw [other u same]
      exact keep u same
  · intro some_ u serves
    rcases alert with empty | mine | ⟨rfl, notMine, serving⟩
    · exact absurd empty some_
    · exact ⟨t, by rw [self]; exact mine⟩
    · have serves' : ∃ v, (s.pc v).serving = true := by
        by_cases same : u = t
        · rw [same, self] at serves
          exact ⟨t, serving serves⟩
        · rw [other u same] at serves
          exact ⟨u, serves⟩
      obtain ⟨v, serves'⟩ := serves'
      obtain ⟨w, isAlert⟩ := inv.alert some_ v serves'
      have differs : w ≠ t := by
        rintro rfl
        rw [notMine] at isAlert
        cases isAlert
      exact ⟨w, by rw [other w differs]; exact isAlert⟩

/-- A thread goes on and leaves the queue alone. -/
theorem Inv.stay (inv : Inv l s) (pc : s'.pc = Function.update s.pc t p)
    (same : s'.next = s.next ∧ s'.workq = s.workq ∧ s'.passed = s.passed ∧ s'.taken = s.taken)
    (own : p.locked = true ↔ s'.qlock = some t)
    (others : ∀ u, u ≠ t → (s.qlock = some u ↔ s'.qlock = some u))
    (hands : p.handing = (s.pc t).handing) (known : Known l s p)
    (alert : l = [] ∨ p.alert = true ∨
      ((s.pc t).alert = false ∧ (p.serving = true → (s.pc t).serving = true))) : Inv l s' := by
  obtain ⟨next, workq, passed, taken⟩ := same
  have handsSame : ∀ mp, p.hands mp = (s.pc t).hands mp := fun mp => by
    rw [Pc.hands, Pc.hands, hands]
  have queue : Queue s' l := by
    rw [Queue, next, workq]
    exact inv.queue
  refine inv.move pc queue own others ?_ ?_ ?_ (known.congr next workq) ?_ ?_
  · intro mp
    rw [passed, taken, handsSame mp]
  · exact inv.once_of_le fun mp => by rw [handsSame mp]
  · intro mp isHanding
    rw [hands] at isHanding
    exact inv.real t mp isHanding
  · exact fun u _ => (inv.known u).congr next workq
  · rcases alert with empty | mine | notMine
    · exact .inl empty
    · exact .inr (.inl mine)
    · exact .inr (.inr ⟨rfl, notMine⟩)

/-- A thread that waited for the mutex locks it. -/
theorem Inv.lock (inv : Inv l s) (locks : s.lock t p = some s') (isLocked : p.locked = true)
    (hands : p.handing = (s.pc t).handing) (known : Known l s p)
    (alert : p.alert = true ∨
      ((s.pc t).alert = false ∧ (p.serving = true → (s.pc t).serving = true))) :
    Inv l s' ∧ s'.pc = Function.update s.pc t p ∧ s'.taken = s.taken := by
  unfold State.lock at locks
  split at locks
  · rename_i free
    obtain rfl := Option.some.inj locks
    refine ⟨?_, rfl, rfl⟩
    refine inv.stay rfl ⟨rfl, rfl, rfl, rfl⟩ (by simp [isLocked]) ?_ hands known (.inr alert)
    intro u differs
    rw [free]
    simp [differs.symm]
  · cases locks

/-- A thread that has locked the mutex unlocks it. -/
theorem Inv.unlock (inv : Inv l s) (locked : (s.pc t).locked = true)
    (isUnlocked : p.locked = false) (hands : p.handing = (s.pc t).handing) (known : Known l s p)
    (alert : l = [] ∨ p.alert = true) : Inv l (s.unlock t p) := by
  refine inv.stay rfl ⟨rfl, rfl, rfl, rfl⟩ (by simp [isUnlocked, State.unlock]) ?_ hands known ?_
  · intro u differs
    rw [(inv.owner t).mp locked]
    simp [State.unlock, differs.symm]
  · rcases alert with empty | mine
    · exact .inl empty
    · exact .inr (.inl mine)

/-- A thread that has locked the mutex goes on with it. -/
theorem Inv.inside (inv : Inv l s) (locked : (s.pc t).locked = true) (isLocked : p.locked = true)
    (hands : p.handing = (s.pc t).handing) (known : Known l s p)
    (alert : l = [] ∨ p.alert = true) : Inv l (s.goTo t p) := by
  refine inv.stay rfl ⟨rfl, rfl, rfl, rfl⟩ ?_ (fun u _ => Iff.rfl) hands known ?_
  · exact iff_of_true isLocked ((inv.owner t).mp locked)
  · rcases alert with empty | mine
    · exact .inl empty
    · exact .inr (.inl mine)

/-- A thread without a message hands none. -/
theorem Pc.hands_eq_zero (none_ : p.handing = none) (mp : Addr) : p.hands mp = 0 := by
  rw [Pc.hands, none_]
  rfl

omit [DecidableEq T] in
/-- A message that a thread has not linked yet is not in the queue. -/
theorem Inv.not_queued (inv : Inv l s) (handing : (s.pc t).handing = some mp) : mp ∉ l := by
  have one : (s.pc t).hands mp = 1 := if_pos handing
  have counted := le_weigh (Pc.hands mp) s.pc t
  have once := inv.once mp
  exact List.count_eq_zero.mp (by omega)

/-- The thread that has locked the mutex sets `m_next` of its message. -/
theorem Inv.setNext (inv : Inv l s) (here : s.pc t = .enqueueNext mp) :
    Inv l { s.goTo t (.enqueueHead mp) with next := Function.update s.next mp s.workq } := by
  have locked : (s.pc t).locked = true := by rw [here]; rfl
  have handing : (s.pc t).handing = some mp := by rw [here]; rfl
  have outside := inv.not_queued handing
  have queue : Queue { s.goTo t (.enqueueHead mp) with
      next := Function.update s.next mp s.workq } l := by
    refine inv.queue.congr fun a mem => ?_
    have differs : a ≠ mp := fun same => outside (same ▸ mem)
    exact congrArg some (Function.update_of_ne differs s.workq s.next)
  refine inv.move rfl queue (iff_of_true rfl ((inv.owner t).mp locked)) (fun u _ => Iff.rfl)
    ?_ ?_ ?_ (Function.update_self ..) ?_ ?_
  · intro a
    rw [here]
    rfl
  · refine inv.once_of_le fun a => ?_
    rw [here]
    exact Nat.le_refl _
  · intro a isHanding
    exact inv.real t a (by rw [here]; exact isHanding)
  · exact fun u differs => (inv.known u).unlocked (inv.others_unlocked locked differs)
  · exact .inr (.inr ⟨rfl, by rw [here]; rfl, fun serves => by cases serves⟩)

/-- The thread that has locked the mutex makes its message the first. -/
theorem Inv.push (inv : Inv l s) (here : s.pc t = .enqueueHead mp) :
    Inv (mp :: l) { s.goTo t .enqueueUnlock with workq := mp } := by
  have locked : (s.pc t).locked = true := by rw [here]; rfl
  have handing : (s.pc t).handing = some mp := by rw [here]; rfl
  have next : s.next mp = s.workq := by
    have known := inv.known t
    rw [here] at known
    exact known
  have queue : Queue { s.goTo t .enqueueUnlock with workq := mp } (mp :: l) :=
    ⟨rfl, inv.real t mp handing, s.workq, congrArg some next, inv.queue⟩
  have hands : ∀ a, (s.pc t).hands a = if mp = a then 1 else 0 := fun a => by
    rw [here, Pc.hands]
    simp [Pc.handing]
  have counts : ∀ a, (mp :: l).count a = l.count a + if mp = a then 1 else 0 := fun a => by
    simp [List.count_cons]
  refine inv.move rfl queue (iff_of_true rfl ((inv.owner t).mp locked)) (fun u _ => Iff.rfl)
    ?_ ?_ (fun a isHanding => by cases isHanding) trivial ?_ (.inr (.inl rfl))
  · intro a
    rw [hands, counts, Pc.hands_eq_zero rfl, Nat.add_zero, Nat.add_assoc]
    rfl
  · refine inv.once_of_le fun a => ?_
    rw [hands, counts, Pc.hands_eq_zero rfl, Nat.add_zero]
  · exact fun u differs => (inv.known u).unlocked (inv.others_unlocked locked differs)

/-- The thread that has locked the mutex takes the first message. -/
theorem Inv.pop (inv : Inv l s) (here : s.pc t = .processUnlink mp) : ∃ l', l = mp :: l' ∧
    Inv l' { s.goTo t .processUnlock with workq := s.next mp, taken := s.taken ++ [mp] } := by
  have locked : (s.pc t).locked = true := by rw [here]; rfl
  have known : mp = s.workq ∧ mp ≠ 0 := by
    have known := inv.known t
    rw [here] at known
    exact known
  obtain ⟨first, nonnull⟩ := known
  have queue := inv.queue
  rw [Queue, ← first] at queue
  obtain ⟨n, l', rfl, isNext, rest⟩ := queue.exists_cons nonnull
  obtain rfl := Option.some.inj isNext
  refine ⟨l', rfl, inv.move rfl rest (iff_of_true rfl ((inv.owner t).mp locked))
    (fun u _ => Iff.rfl) ?_ ?_ (fun a isHanding => by cases isHanding) trivial ?_ (.inr (.inl rfl))⟩
  · intro a
    rw [here, List.count_append, List.count_cons, List.count_cons, List.count_nil,
      Pc.hands_eq_zero rfl, Pc.hands_eq_zero rfl]
    dsimp only [State.goTo]
    omega
  · refine inv.once_of_le fun a => ?_
    rw [here, List.count_cons, Pc.hands_eq_zero rfl, Pc.hands_eq_zero rfl]
    omega
  · exact fun u differs => (inv.known u).unlocked (inv.others_unlocked locked differs)

/-! ## What one step does -/

/-- What a step does to the stack of messages: nothing, or it links one, or it takes the one that
was linked last. -/
inductive OnStack (l l' : List Addr) (s s' : State T) : Prop where
  /-- Nothing. -/
  | still (same : l' = l) (taken : s'.taken = s.taken)
  /-- A message is linked. -/
  | push (mp : Addr) (linked : l' = mp :: l) (taken : s'.taken = s.taken)
  /-- The message linked last is taken. -/
  | pop (mp : Addr) (linked : l = mp :: l') (taken : s'.taken = s.taken ++ [mp])

/-- How many statements a thread still executes before it returns or is blocked; a message in the
queue pays for the turn of the loop that takes it, a signal for the threads it wakes. -/
def Pc.weight (threads : Nat) : Pc → Nat
  | .enqueueLock _ => 3 * threads + 10
  | .enqueueNext _ => 3 * threads + 9
  | .enqueueHead _ => 3 * threads + 8
  | .enqueueUnlock => 3 * threads + 2
  | .enqueueSignal => 3 * threads + 1
  | .processUnlock => 4
  | .processLock => 3
  | .relock => 3
  | .processTest => 2
  | .processWait => 1
  | .processTake => 1
  | .idle => 0
  | .asleep => 0
  | .processUnlink _ => 0
  | .crashed => 0

/-- How many steps are left before no thread can go on. -/
def remaining (l : List Addr) (s : State T) : Nat :=
  weigh (Pc.weight (Fintype.card T)) s.pc + 5 * l.length

/-- A statement that leads to one of less weight lowers what remains. -/
theorem remaining_lt (pc : s'.pc = Function.update s.pc t p)
    (less : p.weight (Fintype.card T) + 5 * l'.length <
      (s.pc t).weight (Fintype.card T) + 5 * l.length) : remaining l' s' < remaining l s := by
  have change := weigh_update (Pc.weight (Fintype.card T)) s.pc t p
  rw [remaining, remaining, pc]
  omega

/-- What an event leads to: the invariant, a step of the stack and, if it is a step of the
functions, less that remains. -/
def Leads (l : List Addr) (s s' : State T) (internal : Prop) : Prop :=
  ∃ l', Inv l' s' ∧ OnStack l l' s s' ∧ (internal → remaining l' s' < remaining l s)

/-- A step that leaves the queue alone and leads to a statement of less weight. -/
theorem leads_still (inv : Inv l s') (pc : s'.pc = Function.update s.pc t p)
    (taken : s'.taken = s.taken)
    (less : p.weight (Fintype.card T) < (s.pc t).weight (Fintype.card T)) (internal : Prop) :
    Leads l s s' internal :=
  ⟨l, inv, .still rfl taken, fun _ => remaining_lt pc (Nat.add_lt_add_right less _)⟩

/-- A thread executes its next statement. -/
theorem runStep_leads (inv : Inv l s) (stepped : runStep s t = some s') : Leads l s s' True := by
  cases here : s.pc t with
  | idle | enqueueSignal | asleep | crashed => simp [runStep, here] at stepped
  | enqueueLock mp =>
    simp only [runStep, here] at stepped
    obtain ⟨inv', pc, taken⟩ := inv.lock stepped rfl (by rw [here]; rfl) trivial
      (.inr ⟨by rw [here]; rfl, fun serves => by cases serves⟩)
    exact leads_still inv' pc taken (by rw [here]; simp only [Pc.weight]; omega) True
  | enqueueNext mp =>
    have real := inv.real t mp (by rw [here]; rfl)
    simp only [runStep, here, if_neg real] at stepped
    obtain rfl := Option.some.inj stepped
    exact leads_still (inv.setNext here) rfl rfl (by rw [here]; simp only [Pc.weight]; omega) True
  | enqueueHead mp =>
    simp only [runStep, here] at stepped
    obtain rfl := Option.some.inj stepped
    refine ⟨mp :: l, inv.push here, .push mp rfl rfl, fun _ => ?_⟩
    apply remaining_lt rfl
    rw [here, List.length_cons]
    simp only [Pc.weight]
    omega
  | enqueueUnlock =>
    simp only [runStep, here] at stepped
    obtain rfl := Option.some.inj stepped
    have inv' := inv.unlock (p := .enqueueSignal) (by rw [here]; rfl) rfl (by rw [here]; rfl)
      trivial (.inr rfl)
    exact leads_still inv' rfl rfl (by rw [here]; simp only [Pc.weight]; omega) True
  | processLock =>
    simp only [runStep, here] at stepped
    obtain ⟨inv', pc, taken⟩ := inv.lock stepped rfl (by rw [here]; rfl) trivial (.inl rfl)
    exact leads_still inv' pc taken (by rw [here]; simp [Pc.weight]) True
  | processTest =>
    simp only [runStep, here] at stepped
    obtain rfl := Option.some.inj stepped
    have queue := inv.queue
    by_cases empty : s.workq = 0
    · have isNil : l = [] := by
        rw [Queue, empty] at queue
        exact queue.eq_nil
      rw [if_pos empty]
      have inv' := inv.inside (p := .processWait) (by rw [here]; rfl) rfl (by rw [here]; rfl)
        isNil (.inl isNil)
      exact leads_still inv' rfl rfl (by rw [here]; simp [Pc.weight]) True
    · have notNil : l ≠ [] := by
        rintro rfl
        exact empty queue
      rw [if_neg empty]
      have inv' := inv.inside (p := .processTake) (by rw [here]; rfl) rfl (by rw [here]; rfl)
        notNil (.inr rfl)
      exact leads_still inv' rfl rfl (by rw [here]; simp [Pc.weight]) True
  | processWait =>
    simp only [runStep, here] at stepped
    obtain rfl := Option.some.inj stepped
    have isNil : l = [] := by
      have known := inv.known t
      rw [here] at known
      exact known
    have inv' := inv.unlock (p := .asleep) (by rw [here]; rfl) rfl (by rw [here]; rfl)
      trivial (.inl isNil)
    exact leads_still inv' rfl rfl (by rw [here]; simp [Pc.weight]) True
  | relock =>
    simp only [runStep, here] at stepped
    obtain ⟨inv', pc, taken⟩ := inv.lock stepped rfl (by rw [here]; rfl) trivial (.inl rfl)
    exact leads_still inv' pc taken (by rw [here]; simp [Pc.weight]) True
  | processTake =>
    simp only [runStep, here] at stepped
    obtain rfl := Option.some.inj stepped
    have notNil : l ≠ [] := by
      have known := inv.known t
      rw [here] at known
      exact known
    have queue := inv.queue
    have real : s.workq ≠ 0 := by
      intro empty
      rw [Queue, empty] at queue
      exact notNil queue.eq_nil
    have inv' := inv.inside (p := .processUnlink s.workq) (by rw [here]; rfl) rfl
      (by rw [here]; rfl) ⟨rfl, real⟩ (.inr rfl)
    exact leads_still inv' rfl rfl (by rw [here]; simp [Pc.weight]) True
  | processUnlink mp =>
    obtain ⟨l', rfl, inv'⟩ := inv.pop here
    have real : mp ≠ 0 := inv.queue.ne_null List.mem_cons_self
    simp only [runStep, here, if_neg real] at stepped
    obtain rfl := Option.some.inj stepped
    refine ⟨l', inv', .pop mp rfl rfl, fun _ => ?_⟩
    apply remaining_lt rfl
    rw [here, List.length_cons]
    simp only [Pc.weight]
    omega
  | processUnlock =>
    simp only [runStep, here] at stepped
    obtain rfl := Option.some.inj stepped
    have inv' := inv.unlock (p := .processLock) (by rw [here]; rfl) rfl (by rw [here]; rfl)
      trivial (.inr rfl)
    exact leads_still inv' rfl rfl (by rw [here]; simp [Pc.weight]) True

/-- A caller passes a message of its own. -/
theorem Inv.enqueue (inv : Inv l s) (idle : s.pc t = .idle) (real : mp ≠ 0)
    (free : s.passed.count mp = s.taken.count mp) :
    Inv l { s.goTo t (.enqueueLock mp) with passed := s.passed ++ [mp] } := by
  have notMine : (s.pc t).locked = false := by rw [idle]; rfl
  have unowned : s.qlock ≠ some t := by
    intro owned
    rw [(inv.owner t).mpr owned] at notMine
    cases notMine
  have none_ : ∀ a, (s.pc t).hands a = 0 := Pc.hands_eq_zero (by rw [idle]; rfl)
  have hands : ∀ a, (Pc.enqueueLock mp).hands a = [mp].count a := fun a => by
    simp [Pc.hands, Pc.handing, List.count_singleton]
  refine inv.move rfl inv.queue (iff_of_false Bool.false_ne_true unowned) (fun u _ => Iff.rfl)
    ?_ ?_ ?_ trivial (fun u _ => (inv.known u).congr rfl rfl) ?_
  · intro a
    dsimp only [State.goTo]
    rw [none_, hands, List.count_append]
    omega
  · intro a
    have change := weigh_update (Pc.hands a) s.pc t (.enqueueLock mp)
    have counted := inv.count a
    have once := inv.once a
    rw [none_, hands] at change
    by_cases same : mp = a
    · subst same
      rw [List.count_singleton_self] at change
      omega
    · rw [List.count_singleton, if_neg (by simpa using same)] at change
      omega
  · intro a isHanding
    exact Option.some.inj isHanding ▸ real
  · exact .inr (.inr ⟨rfl, by rw [idle]; rfl, fun serves => by cases serves⟩)

/-- A thread signals and wakes some of the threads that wait, at least one if there is any. -/
theorem Inv.signal (inv : Inv l s) (here : s.pc t = .enqueueSignal)
    (asleep : ∀ u ∈ woken, s.pc u = .asleep) (any : woken = [] → ∀ u, s.pc u ≠ .asleep) :
    Inv l { s with pc := signalled s.pc t woken } := by
  have cases_ : ∀ u, (u = t ∧ signalled s.pc t woken u = .idle) ∨
      (s.pc u = .asleep ∧ signalled s.pc t woken u = .relock) ∨
      (u ≠ t ∧ signalled s.pc t woken u = s.pc u) := by
    intro u
    by_cases self : u = t
    · exact .inl ⟨self, if_pos self⟩
    · by_cases wakes : u ∈ woken
      · exact .inr (.inl ⟨asleep u wakes, by rw [signalled, if_neg self, if_pos wakes]⟩)
      · exact .inr (.inr ⟨self, by rw [signalled, if_neg self, if_neg wakes]⟩)
  have hands : ∀ u, (signalled s.pc t woken u).handing = (s.pc u).handing := by
    intro u
    rcases cases_ u with ⟨rfl, after⟩ | ⟨before, after⟩ | ⟨-, after⟩
    · rw [after, here]
      rfl
    · rw [after, before]
      rfl
    · rw [after]
  have weight : ∀ mp, weigh (Pc.hands mp) (signalled s.pc t woken) = weigh (Pc.hands mp) s.pc :=
    fun mp => Finset.sum_congr rfl fun u _ => by rw [Pc.hands, Pc.hands, hands]
  refine ⟨inv.queue, ?_, ?_, ?_, ?_, ?_, ?_⟩
  · intro u
    have before := inv.owner u
    rcases cases_ u with ⟨rfl, after⟩ | ⟨was, after⟩ | ⟨-, after⟩
    · rw [here] at before
      simp only [after]
      exact before
    · rw [was] at before
      simp only [after]
      exact before
    · simp only [after]
      exact before
  · intro mp
    simp only [weight]
    exact inv.count mp
  · intro mp
    simp only [weight]
    exact inv.once mp
  · intro u mp isHanding
    exact inv.real u mp ((hands u).symm.trans isHanding)
  · intro u
    show Known l _ (signalled s.pc t woken u)
    rcases cases_ u with ⟨-, after⟩ | ⟨-, after⟩ | ⟨-, after⟩
    · rw [after]
      trivial
    · rw [after]
      trivial
    · rw [after]
      exact (inv.known u).congr rfl rfl
  · intro some_ u serves
    cases woken with
    | cons v rest =>
      -- The thread that is woken locks the mutex and looks.
      refine ⟨v, ?_⟩
      rcases cases_ v with ⟨rfl, -⟩ | ⟨-, after⟩ | ⟨notSelf, after⟩
      · have bad := asleep v List.mem_cons_self
        rw [here] at bad
        cases bad
      · simp only [after]
        rfl
      · have isRelock : signalled s.pc t (v :: rest) v = .relock := by
          rw [signalled, if_neg notSelf, if_pos List.mem_cons_self]
        simp only [isRelock]
        rfl
    | nil =>
      -- Nobody waits, so the thread that serves will look, or knows that there is no message.
      have awake := any rfl u
      rcases cases_ u with ⟨-, after⟩ | ⟨was, -⟩ | ⟨-, after⟩
      · have bad : (signalled s.pc t [] u).serving = true := serves
        rw [after] at bad
        cases bad
      · exact absurd was awake
      · refine ⟨u, ?_⟩
        have known := inv.known u
        have serves' : (s.pc u).serving = true := (congrArg Pc.serving after).symm.trans serves
        show (signalled s.pc t [] u).alert = true
        rw [after]
        cases pc : s.pc u with
        | asleep => exact absurd pc awake
        | processWait =>
          rw [pc] at known
          exact absurd known some_
        | _ =>
          rw [pc] at serves'
          first | rfl | cases serves'

/-- A thread calls `process_msg`. -/
theorem Inv.process (inv : Inv l s) (idle : s.pc t = .idle) : Inv l (s.goTo t .processLock) := by
  have notMine : (s.pc t).locked = false := by rw [idle]; rfl
  have unowned : s.qlock ≠ some t := by
    intro owned
    rw [(inv.owner t).mpr owned] at notMine
    cases notMine
  exact inv.stay rfl ⟨rfl, rfl, rfl, rfl⟩ (iff_of_false Bool.false_ne_true unowned)
    (fun u _ => Iff.rfl) (by rw [idle]; rfl) trivial (.inr (.inl rfl))

/-- A thread that waits wakes up by itself. -/
theorem Inv.wake (inv : Inv l s) (asleep : s.pc t = .asleep) : Inv l (s.goTo t .relock) := by
  have notMine : (s.pc t).locked = false := by rw [asleep]; rfl
  have unowned : s.qlock ≠ some t := by
    intro owned
    rw [(inv.owner t).mpr owned] at notMine
    cases notMine
  exact inv.stay rfl ⟨rfl, rfl, rfl, rfl⟩ (iff_of_false Bool.false_ne_true unowned)
    (fun u _ => Iff.rfl) (by rw [asleep]; rfl) trivial (.inr (.inl rfl))

/-- The threads that a signal wakes have less to do than the signal is counted for. -/
theorem remaining_signal (here : s.pc t = .enqueueSignal)
    (asleep : ∀ u ∈ woken, s.pc u = .asleep) :
    remaining l { s with pc := signalled s.pc t woken } < remaining l s := by
  have notWoken : t ∉ woken := by
    intro mem
    have bad := asleep t mem
    rw [here] at bad
    cases bad
  have change := weigh_update (Pc.weight (Fintype.card T))
    (fun u => if u ∈ woken then Pc.relock else s.pc u) t .idle
  have woken_ : weigh (Pc.weight (Fintype.card T))
      (fun u => if u ∈ woken then Pc.relock else s.pc u) ≤
      weigh (Pc.weight (Fintype.card T)) s.pc + 3 * Fintype.card T := by
    apply weigh_le
    intro u
    split
    · rename_i mem
      rw [asleep u mem]
      exact Nat.le_refl 3
    · exact Nat.le_add_right _ 3
  rw [if_neg notWoken, here] at change
  rw [remaining, remaining, signalled_eq]
  simp only [Pc.weight] at change
  dsimp only
  omega

/-- Every event keeps the invariant, does one operation of the stack at most, and lowers what
remains if it is a step of the functions. -/
theorem step_leads (inv : Inv l s) (stepped : step s event = some s') :
    Leads l s s' event.Internal := by
  cases event with
  | enqueue t mp =>
    simp only [step] at stepped
    split at stepped
    · rename_i allowed
      obtain ⟨idle, real, free⟩ := allowed
      obtain rfl := Option.some.inj stepped
      exact ⟨l, inv.enqueue idle real free, .still rfl rfl, False.elim⟩
    · cases stepped
  | process t =>
    simp only [step] at stepped
    split at stepped
    · rename_i idle
      obtain rfl := Option.some.inj stepped
      exact ⟨l, inv.process idle, .still rfl rfl, False.elim⟩
    · cases stepped
  | run t => exact runStep_leads inv stepped
  | signal t woken =>
    simp only [step] at stepped
    split at stepped
    · rename_i allowed
      obtain ⟨here, asleep, any⟩ := allowed
      obtain rfl := Option.some.inj stepped
      exact ⟨l, inv.signal here asleep any, .still rfl rfl, fun _ => remaining_signal here asleep⟩
    · cases stepped
  | wake t =>
    simp only [step] at stepped
    split at stepped
    · rename_i asleep
      obtain rfl := Option.some.inj stepped
      exact ⟨l, inv.wake asleep, .still rfl rfl, False.elim⟩
    · cases stepped

/-- The invariant of some queue holds in every state that is reached. -/
theorem reached_inv {events : List (Event T)}
    (ran : Machine.run step (start memory) events = some s) : ∃ l, Inv l s := by
  have keeps : ∀ (s : State T) event s', (∃ l, Inv l s) → step s event = some s' →
      ∃ l', Inv l' s' := by
    rintro s event s' ⟨l, inv⟩ stepped
    obtain ⟨l', inv', -⟩ := step_leads inv stepped
    exact ⟨l', inv'⟩
  exact @Machine.run_keeps _ _ _ _ _ _ (fun s => ∃ l, Inv l s) keeps ⟨[], start_inv memory⟩ ran

/-! ## What the queue promises -/

/-- No thread dereferences `NULL`, one thread at a time works on the queue, and the queue is a stack
of the messages that are passed and not taken, each of which is taken once. -/
structure Sound (s : State T) : Prop where
  /-- No thread dereferences `NULL`. -/
  running : ∀ t, s.pc t ≠ .crashed
  /-- One thread at a time is between lock and unlock. -/
  exclusive : ∀ t u, (s.pc t).locked = true → (s.pc u).locked = true → t = u
  /-- A message is taken at most as often as it is passed, and at most one pass is open. -/
  once : ∀ mp, s.taken.count mp ≤ s.passed.count mp ∧ s.passed.count mp ≤ s.taken.count mp + 1
  /-- The passes that are not taken are in the queue or in the hands of a thread, and every event
  does one operation of a stack at most. -/
  stack : ∃ l, Queue s l ∧
    (∀ mp, s.passed.count mp = s.taken.count mp + l.count mp + weigh (Pc.hands mp) s.pc) ∧
    ∀ event s', step s event = some s' → ∃ l', Queue s' l' ∧ OnStack l l' s s'

/-- In every order of the steps of any threads, messages are neither lost nor taken twice, and the
queue behaves as a stack. -/
theorem messages_conserved {events : List (Event T)}
    (ran : Machine.run step (start memory) events = some s) : Sound s := by
  obtain ⟨l, inv⟩ := reached_inv ran
  refine ⟨?_, ?_, ?_, l, inv.queue, inv.count, ?_⟩
  · intro t crashed
    have known := inv.known t
    rw [crashed] at known
    exact known
  · intro t u mine theirs
    have owner := (inv.owner t).mp mine
    rw [(inv.owner u).mp theirs] at owner
    exact (Option.some.inj owner).symm
  · intro mp
    have count := inv.count mp
    have once := inv.once mp
    omega
  · intro event s' stepped
    obtain ⟨l', inv', onStack, -⟩ := step_leads inv stepped
    exact ⟨l', inv'.queue, onStack⟩

/-- A thread waits for a message, another passes one and signals, and the first takes it and waits
again. -/
def onePass : List (Event Bool) :=
  [.process true, .run true, .run true, .run true, .enqueue false 5, .run false, .run false,
    .run false, .run false, .signal false [true], .run true, .run true, .run true, .run true,
    .run true, .run true, .run true, .run true]

/-- In that run the message is taken. -/
theorem messages_conserved_onePass : ∃ s, Machine.run step (start fun _ => 0) onePass = some s ∧
    Sound s ∧ s.passed = [5] ∧ s.taken = [5] := by
  have ends : (Machine.run step (start fun _ => 0) onePass).map
      (fun s => (s.passed, s.taken)) = some ([5], [5]) := by decide
  obtain ⟨s, ran, messages⟩ := Option.map_eq_some_iff.mp ends
  obtain ⟨passed, taken⟩ := Prod.mk.inj messages
  exact ⟨s, ran, messages_conserved ran, passed, taken⟩

/-- A thread that is in one of the functions and not blocked in it, or some other thread, can go
on: mutex and condition do not block them all. -/
theorem Inv.goes_on (inv : Inv l s) (busy : s.pc t ≠ .idle) (awake : s.pc t ≠ .asleep) :
    ∃ event, event.Internal ∧ step s event ≠ none := by
  by_cases free : s.qlock = none
  · cases here : s.pc t with
    | idle => exact absurd here busy
    | asleep => exact absurd here awake
    | crashed =>
      have known := inv.known t
      rw [here] at known
      exact known.elim
    | enqueueSignal =>
      by_cases waits : ∃ u, s.pc u = .asleep
      · obtain ⟨u, asleep⟩ := waits
        exact ⟨.signal t [u], trivial, by simp [step, here, asleep]⟩
      · refine ⟨.signal t [], trivial, ?_⟩
        have none_ : ∀ u, s.pc u ≠ .asleep := fun u asleep => waits ⟨u, asleep⟩
        simp [step, here, none_]
    | enqueueLock _ | processLock | relock =>
      exact ⟨.run t, trivial, by simp [step, runStep, here, State.lock, free]⟩
    | enqueueNext _ | enqueueHead _ | enqueueUnlock | processTest | processWait | processTake
    | processUnlink _ | processUnlock =>
      have owned := (inv.owner t).mp (by rw [here]; rfl)
      rw [free] at owned
      cases owned
  · -- The thread that has locked the mutex goes on.
    obtain ⟨u, owned⟩ := Option.ne_none_iff_exists'.mp free
    have locked := (inv.owner u).mpr owned
    refine ⟨.run u, trivial, ?_⟩
    cases here : s.pc u with
    | enqueueNext mp =>
      have real := inv.real u mp (by rw [here]; rfl)
      simp [step, runStep, here, real]
    | processUnlink mp =>
      have known := inv.known u
      rw [here] at known
      simp [step, runStep, here, known.2]
    | enqueueHead _ | enqueueUnlock | processTest | processWait | processTake | processUnlock =>
      simp [step, runStep, here]
    | _ =>
      rw [here] at locked
      cases locked

/-- However the threads are scheduled, they come to rest; and at rest no message is left behind. -/
structure Delivers (s : State T) : Prop where
  /-- Without new calls and threads that wake up by themselves, the threads take a bounded number of
  steps. -/
  ends : ∃ n, ∀ later s', (∀ event ∈ later, event.Internal) →
    Machine.run step s later = some s' → later.length ≤ n
  /-- When no thread can go on, none is stuck: each has returned or waits on the condition. -/
  rests : Machine.Stuck step Event.Internal s → ∀ t, s.pc t = .idle ∨ s.pc t = .asleep
  /-- When no thread can go on and a thread processes messages, all are taken. -/
  delivered : Machine.Stuck step Event.Internal s → (∃ t, (s.pc t).serving = true) →
    s.workq = 0 ∧ s.taken.Perm s.passed

/-- From every state that any threads reach in any order of their steps, the threads come to rest
with all messages taken: no wake-up is lost. -/
theorem messages_delivered {events : List (Event T)}
    (ran : Machine.run step (start memory) events = some s) : Delivers s := by
  obtain ⟨l, inv⟩ := reached_inv ran
  have rests : Machine.Stuck step Event.Internal s →
      ∀ t, s.pc t = .idle ∨ s.pc t = .asleep := by
    intro stuck t
    by_contra neither
    rw [not_or] at neither
    obtain ⟨event, internal, enabled⟩ := inv.goes_on neither.1 neither.2
    exact enabled (stuck event internal)
  refine ⟨⟨remaining l s, ?_⟩, rests, ?_⟩
  · intro later s' internal ran'
    have lowers : ∀ l s event s', Inv l s → Event.Internal event →
        step (T := T) s event = some s' →
        ∃ l', Inv l' s' ∧ remaining l' s' < remaining l s := by
      intro l s event s' inv internal stepped
      obtain ⟨l', inv', -, less⟩ := step_leads inv stepped
      exact ⟨l', inv', less internal⟩
    obtain ⟨l', -, bound⟩ := Machine.run_length_le lowers inv internal ran'
    omega
  · rintro stuck ⟨t, serves⟩
    have calm : ∀ u, (s.pc u).alert = false ∧ (s.pc u).handing = none := by
      intro u
      rcases rests stuck u with idle | asleep
      · rw [idle]
        exact ⟨rfl, rfl⟩
      · rw [asleep]
        exact ⟨rfl, rfl⟩
    have empty : l = [] := by
      by_contra some_
      obtain ⟨u, isAlert⟩ := inv.alert some_ t serves
      rw [(calm u).1] at isAlert
      cases isAlert
    subst empty
    refine ⟨inv.queue, List.perm_iff_count.mpr fun mp => ?_⟩
    have count := inv.count mp
    have none_ : weigh (Pc.hands mp) s.pc = 0 :=
      Finset.sum_eq_zero fun u _ => Pc.hands_eq_zero (calm u).2 mp
    rw [none_, List.count_nil] at count
    omega

/-- In the run in which one message is passed, the threads come to rest with it taken. -/
theorem messages_delivered_onePass :
    ∃ s, Machine.run step (start fun _ => 0) onePass = some s ∧ Delivers s := by
  have ends : (Machine.run step (start fun _ => 0) onePass).isSome = true := by decide
  obtain ⟨s, ran⟩ := Option.isSome_iff_exists.mp ends
  exact ⟨s, ran, messages_delivered ran⟩

end Steps

end Machine

end CodeLearning.Threads.WorkQueue
