import CodeLearning.Lib.Machine
import Mathlib.Algebra.BigOperators.Group.Finset.Basic
import Mathlib.Algebra.Order.BigOperators.Group.Finset
import Mathlib.Algebra.Order.Ring.Nat
import Mathlib.Data.Fintype.Basic
import Mathlib.Data.List.TakeWhile
import Mathlib.Logic.Function.Basic

/-!
# Polling message queues

`poll` cannot wait for a message queue. For each queue a thread receives the messages and writes
them to a socket, and `main` polls the sockets and prints what it reads. A message may have as many
bytes as the buffer of `main`, which then puts the `NUL` behind the buffer. Other programs send the
messages; `sendmsg` is one of them.
-/

namespace CodeLearning.XsiIpc

/-- The bytes of a message. -/
abbrev Bytes := List UInt8

/-- `MAXMSZ`. -/
def MAXMSZ : Nat := 512

/-- A C string: the bytes before the first `NUL`. -/
def cString (text : Bytes) : Bytes := text.takeWhile (· ≠ 0)

/-- The message that `sendmsg` sends for its argument. -/
def sendmsg (argument : Bytes) : Bytes := (cString argument).take (MAXMSZ - 1)

/-- One of the queues, with its thread and its socket. -/
structure Queue where
  /-- The messages that were sent to the queue. -/
  sent : List Bytes
  /-- Those in the queue. -/
  queue : List Bytes
  /-- The message that the thread has received and not written. -/
  helper : Option Bytes
  /-- The datagrams in the socket. -/
  socket : List Bytes
  /-- `POLLIN` in `revents`. -/
  revents : Bool
  /-- The datagrams that `main` has read and printed. -/
  read : List Bytes
deriving DecidableEq

/-- Where `main` is. -/
inductive Main where
  /-- Before `poll`. -/
  | poll
  /-- In the loop over the descriptors, at one of them. -/
  | look (i : Nat)
  /-- It has written behind `buf`, after the datagram of a descriptor. -/
  | outOfBounds (i : Nat)
deriving DecidableEq

/-- The queues and `main`. -/
structure State (n : Nat) where
  /-- The queues. -/
  queues : Fin n → Queue
  /-- Where `main` is. -/
  main : Main

/-- What may happen. -/
inductive Event (n : Nat) where
  /-- Any process sends a message. -/
  | msgsnd (i : Fin n) (m : Bytes)
  /-- A thread receives a message. -/
  | msgrcv (i : Fin n)
  /-- A thread writes its message to its socket. -/
  | write (i : Fin n)
  /-- `poll` returns. -/
  | poll
  /-- `main` does a turn of its loop, or leaves it. -/
  | look
deriving DecidableEq

section Functions

variable {n : Nat}

/-- One queue changes. -/
def State.set (s : State n) (i : Fin n) (q : Queue) : State n :=
  { s with queues := Function.update s.queues i q }

/-- Whether the socket has something to read. -/
def Queue.ready (q : Queue) : Bool := !q.socket.isEmpty

/-- `msgrcv` with `MSG_NOERROR`. -/
def Queue.msgrcv (q : Queue) : Option Queue :=
  match q.helper, q.queue with
  | none, m :: rest => some { q with queue := rest, helper := some (m.take MAXMSZ) }
  | _, _ => none

/-- `write` to a socket with room for `cap` datagrams. A write of no bytes may do nothing. -/
def Queue.write (cap : Nat) (sendsEmpty : Bool) (q : Queue) : Option Queue :=
  match q.helper with
  | none => none
  | some m =>
    if m = [] ∧ sendsEmpty = false then some { q with helper := none }
    else if q.socket.length < cap then some { q with helper := none, socket := q.socket ++ [m] }
    else none

/-- A turn of the loop in `main`. -/
def look (s : State n) (k : Nat) : Option (State n) :=
  if inside : k < n then
    let q := s.queues ⟨k, inside⟩
    if q.revents then
      match q.socket with
      | [] => none
      | d :: rest =>
        if d.length < MAXMSZ then
          some { s.set ⟨k, inside⟩ { q with socket := rest, read := q.read ++ [d] } with
            main := .look (k + 1) }
        else some { s with main := .outOfBounds k }
    else some { s with main := .look (k + 1) }
  else some { s with main := .poll }

/-- An event, if it can happen. -/
def step (cap : Nat) (sendsEmpty : Bool) (s : State n) : Event n → Option (State n)
  | .msgsnd i m =>
    some (s.set i { s.queues i with
      sent := (s.queues i).sent ++ [m], queue := (s.queues i).queue ++ [m] })
  | .msgrcv i => (s.queues i).msgrcv.map (s.set i)
  | .write i => ((s.queues i).write cap sendsEmpty).map (s.set i)
  | .poll =>
    if s.main = .poll ∧ ∃ i, (s.queues i).ready = true then
      some { queues := fun i => { s.queues i with revents := (s.queues i).ready }, main := .look 0 }
    else none
  | .look =>
    match s.main with
    | .look k => look s k
    | _ => none

/-- Empty queues, and `main` before its loop. -/
def start (n : Nat) : State n := ⟨fun _ => ⟨[], [], none, [], false, []⟩, .poll⟩

/-- An event of the program. -/
def Event.Internal : Event n → Prop
  | .msgsnd _ _ => False
  | _ => True

/-- What `main` has printed for a queue. -/
def Queue.printed (q : Queue) : List Bytes := q.read.map cString

/-- Whether a message gets to the socket. -/
def passes (sendsEmpty : Bool) (m : Bytes) : Bool := !m.isEmpty || sendsEmpty

/-- The datagrams that become of messages. -/
def datagrams (sendsEmpty : Bool) (ms : List Bytes) : List Bytes :=
  (ms.map (·.take MAXMSZ)).filter (passes sendsEmpty)

/-- `main` has yet to read the socket of a queue in this round. -/
def pending (main : Main) (i : Fin n) (q : Queue) : Bool :=
  match main with
  | .poll => false
  | .look k => decide (k ≤ i.val) && q.revents
  | .outOfBounds k => decide (k ≤ i.val) && q.revents

end Functions

/-! ## What holds of a queue -/

/-- Every datagram that becomes of a message is read, in the socket, or still to come, in order. -/
structure Queue.Ok (sendsEmpty : Bool) (q : Queue) : Prop where
  /-- Where the datagrams are. -/
  account : datagrams sendsEmpty q.sent = q.read ++ q.socket ++
    q.helper.toList.filter (passes sendsEmpty) ++ datagrams sendsEmpty q.queue
  /-- Those that are read left room for the `NUL`. -/
  short : ∀ d ∈ q.read, d.length < MAXMSZ

section Queues

variable {cap : Nat} {sendsEmpty : Bool} {q q' : Queue} {m d : Bytes}

/-- The datagrams of one more message. -/
theorem datagrams_append (ms ms' : List Bytes) :
    datagrams sendsEmpty (ms ++ ms') = datagrams sendsEmpty ms ++ datagrams sendsEmpty ms' := by
  rw [datagrams, List.map_append, List.filter_append]
  rfl

/-- The datagrams of a message and others. -/
theorem datagrams_cons (m : Bytes) (ms : List Bytes) :
    datagrams sendsEmpty (m :: ms) =
      [m.take MAXMSZ].filter (passes sendsEmpty) ++ datagrams sendsEmpty ms :=
  datagrams_append [m] ms

/-- A message is sent. -/
theorem Queue.Ok.msgsnd (ok : q.Ok sendsEmpty) (m : Bytes) :
    { q with sent := q.sent ++ [m], queue := q.queue ++ [m] }.Ok sendsEmpty := by
  refine ⟨?_, ok.short⟩
  simp only [datagrams_append, ok.account, List.append_assoc]

/-- A message is received. -/
theorem Queue.Ok.msgrcv (ok : q.Ok sendsEmpty) (received : q.msgrcv = some q') :
    q'.Ok sendsEmpty := by
  unfold Queue.msgrcv at received
  split at received
  · rename_i m rest isNone here
    obtain rfl := Option.some.inj received
    refine ⟨?_, ok.short⟩
    have account := ok.account
    rw [isNone, here, datagrams_cons] at account
    simpa [List.append_assoc] using account
  · cases received

/-- A message is written. -/
theorem Queue.Ok.write (ok : q.Ok sendsEmpty) (written : q.write cap sendsEmpty = some q') :
    q'.Ok sendsEmpty := by
  have account := ok.account
  unfold Queue.write at written
  split at written
  · cases written
  · rename_i m here
    rw [here] at account
    split at written
    · rename_i nothing
      obtain rfl := Option.some.inj written
      refine ⟨?_, ok.short⟩
      simpa [passes, nothing.1, nothing.2] using account
    · rename_i something
      split at written
      · obtain rfl := Option.some.inj written
        refine ⟨?_, ok.short⟩
        have isThere : passes sendsEmpty m = true := by
          cases m with
          | nil => simpa [passes] using something
          | cons c m => rfl
        simpa [isThere, List.append_assoc] using account
      · cases written

/-- A datagram is read. -/
theorem Queue.Ok.read {rest : List Bytes} (ok : q.Ok sendsEmpty) (here : q.socket = d :: rest)
    (fits : d.length < MAXMSZ) :
    { q with socket := rest, read := q.read ++ [d] }.Ok sendsEmpty := by
  refine ⟨?_, fun d' mem => ?_⟩
  · have account := ok.account
    rw [here] at account
    simpa [List.append_assoc] using account
  · rcases List.mem_append.mp mem with old | new
    · exact ok.short d' old
    · rw [List.mem_singleton.mp new]
      exact fits

/-- Every datagram comes from a message that is as long. -/
theorem Queue.Ok.origin (ok : q.Ok sendsEmpty) (mem : d ∈ q.socket) :
    ∃ m ∈ q.sent, d = m.take MAXMSZ := by
  have inSent : d ∈ datagrams sendsEmpty q.sent := by
    rw [ok.account]
    simp [mem]
  obtain ⟨m, isSent, rfl⟩ := List.mem_map.mp (List.mem_of_mem_filter inSent)
  exact ⟨m, isSent, rfl⟩

end Queues

/-! ## What holds in every state -/

/-- The datagrams are accounted for, and `main` finds what `poll` has told it. -/
structure Inv {n : Nat} (sendsEmpty : Bool) (s : State n) : Prop where
  /-- The account of each queue. -/
  queues : ∀ i, (s.queues i).Ok sendsEmpty
  /-- A socket that is still to be read in this round has a datagram. -/
  ready : ∀ i, pending s.main i (s.queues i) = true → (s.queues i).socket ≠ []
  /-- Behind the buffer `main` writes only after a datagram of full length. -/
  long : ∀ k, s.main = .outOfBounds k → ∃ i, ∃ d ∈ (s.queues i).socket, MAXMSZ ≤ d.length

/-- What is left to do for a queue, but for what is read in this round. -/
def weight {n : Nat} (main : Main) (i : Fin n) (q : Queue) : Nat :=
  3 * q.queue.length + 2 * q.helper.toList.length +
    (q.socket.length - (pending main i q).toNat)

/-- How many turns are left in a round of `n`. -/
def phase (n : Nat) : Main → Nat
  | .look k => n - k + 1
  | _ => 0

/-- What is left to do. -/
def remaining {n : Nat} (s : State n) : Nat :=
  (∑ i, weight s.main i (s.queues i)) * (n + 3) + phase n s.main

section Steps

variable {n cap : Nat} {sendsEmpty : Bool} {s s' : State n} {event : Event n} {i : Fin n}
  {q q' : Queue}

/-- Nothing was sent at the start. -/
theorem start_inv : Inv sendsEmpty (start n) := by
  refine ⟨fun i => ⟨rfl, fun d mem => absurd mem List.not_mem_nil⟩, fun i isPending => ?_,
    fun k bad => by cases bad⟩
  cases isPending

/-- One queue changes while `main` stays where it is. -/
theorem Inv.set (inv : Inv sendsEmpty s) (ok : q.Ok sendsEmpty)
    (same : q.revents = (s.queues i).revents) (more : (s.queues i).socket <+: q.socket) :
    Inv sendsEmpty (s.set i q) := by
  refine ⟨fun j => ?_, fun j isPending => ?_, fun k bad => ?_⟩
  · by_cases here : j = i
    · simpa [State.set, here] using ok
    · simpa [State.set, here] using inv.queues j
  · by_cases here : j = i
    · subst here
      have before : pending s.main j (s.queues j) = true := by
        simpa [State.set, pending, same] using isPending
      have nonempty := inv.ready j before
      simp only [State.set, Function.update_self]
      rintro isNil
      rw [isNil, List.prefix_nil] at more
      exact nonempty more
    · simp only [State.set, Function.update_of_ne here] at isPending ⊢
      exact inv.ready j isPending
  · obtain ⟨j, d, mem, isLong⟩ := inv.long k bad
    refine ⟨j, d, ?_, isLong⟩
    by_cases here : j = i
    · subst here
      simpa [State.set] using more.subset mem
    · simpa [State.set, here] using mem

/-- What is left gets less with the weight of one queue. -/
theorem remaining_set (lower : weight s.main i q < weight s.main i (s.queues i)) :
    remaining (s.set i q) < remaining s := by
  have sums : ∑ j, weight (s.set i q).main j ((s.set i q).queues j) <
      ∑ j, weight s.main j (s.queues j) := by
    refine Finset.sum_lt_sum (fun j _ => ?_) ⟨i, Finset.mem_univ i, ?_⟩
    · by_cases here : j = i
      · subst here
        simpa [State.set] using Nat.le_of_lt lower
      · simp [State.set, here]
    · simpa [State.set] using lower
  exact Nat.add_lt_add_right (Nat.mul_lt_mul_of_pos_right sums (by omega)) _

/-- A message is received: the step of its queue. -/
theorem msgrcv_spec (received : q.msgrcv = some q') : q'.revents = q.revents ∧
    q.socket = q'.socket ∧ ∀ main (i : Fin n), weight main i q' < weight main i q := by
  unfold Queue.msgrcv at received
  split at received
  · rename_i m rest isNone here
    obtain rfl := Option.some.inj received
    refine ⟨rfl, rfl, fun main i => ?_⟩
    have same : pending main i { q with queue := rest, helper := some (m.take MAXMSZ) } =
        pending main i q := by
      cases main <;> rfl
    simp only [weight, same, here, isNone, List.length_cons, Option.toList_none,
      Option.toList_some, List.length_nil]
    omega
  · cases received

/-- A message is written: the step of its queue. -/
theorem write_spec (written : q.write cap sendsEmpty = some q') : q'.revents = q.revents ∧
    q.socket <+: q'.socket ∧ ∀ main (i : Fin n), weight main i q' < weight main i q := by
  unfold Queue.write at written
  split at written
  · cases written
  · rename_i m here
    split at written
    · obtain rfl := Option.some.inj written
      refine ⟨rfl, List.prefix_refl _, fun main i => ?_⟩
      have same : pending main i { q with helper := none } = pending main i q := by
        cases main <;> rfl
      simp only [weight, same, here, Option.toList_none, Option.toList_some, List.length_nil,
        List.length_singleton]
      omega
    · split at written
      · obtain rfl := Option.some.inj written
        refine ⟨rfl, List.prefix_append _ _, fun main i => ?_⟩
        have same : pending main i { q with helper := none, socket := q.socket ++ [m] } =
            pending main i q := by
          cases main <;> rfl
        simp only [weight, same, here, Option.toList_none, Option.toList_some, List.length_nil,
          List.length_singleton, List.length_append]
        omega
      · cases written

/-- `poll` returns: every socket with something to read is to be read in the round. -/
theorem Inv.poll (inv : Inv sendsEmpty s) (isPoll : s.main = .poll)
    (some_ : ∃ i, (s.queues i).ready = true)
    (after : s' = { queues := fun i => { s.queues i with revents := (s.queues i).ready },
                    main := .look 0 }) :
    Inv sendsEmpty s' ∧ remaining s' < remaining s := by
  subst after
  have waits : ∀ i, pending (.look 0) i { s.queues i with revents := (s.queues i).ready } =
      (s.queues i).ready := fun i => by simp [pending]
  have before : ∀ i : Fin n, pending s.main i (s.queues i) = false := fun i => by
    rw [isPoll]
    rfl
  constructor
  · refine ⟨fun i => ⟨(inv.queues i).account, (inv.queues i).short⟩, fun i isPending => ?_,
      fun k bad => by cases bad⟩
    rw [waits, Queue.ready] at isPending
    simpa using isPending
  · obtain ⟨i, isReady⟩ := some_
    have sums : ∑ j : Fin n, weight (.look 0) j
        { s.queues j with revents := (s.queues j).ready } < ∑ j, weight s.main j (s.queues j) := by
      refine Finset.sum_lt_sum (fun j _ => ?_) ⟨i, Finset.mem_univ i, ?_⟩
      · simp only [weight, waits, before, Bool.toNat_false]
        omega
      · have nonempty : 0 < (s.queues i).socket.length := by
          rw [List.length_pos_iff]
          simpa [Queue.ready] using isReady
        have one : (s.queues i).ready.toNat = 1 := by rw [isReady, Bool.toNat_true]
        simp only [weight, waits, before, Bool.toNat_false]
        omega
    have scaled := Nat.mul_le_mul_right (n + 3) (Nat.succ_le_of_lt sums)
    simp only [remaining, isPoll, phase] at scaled ⊢
    rw [Nat.succ_mul] at scaled
    omega

/-- What is left gets less with the turns of the round. -/
theorem remaining_phase {queues : Fin n → Queue} {main : Main}
    (weights : ∀ i, weight main i (queues i) = weight s.main i (s.queues i))
    (lower : phase n main < phase n s.main) :
    remaining { queues := queues, main := main } < remaining s := by
  have sums : ∑ i, weight main i (queues i) = ∑ i, weight s.main i (s.queues i) :=
    Finset.sum_congr rfl fun i _ => weights i
  simp only [remaining, sums]
  omega

/-- `main` passes a descriptor or leaves its loop: what is pending is the same. -/
theorem Inv.pass {main : Main} (inv : Inv sendsEmpty s) (notBad : ∀ k, main ≠ .outOfBounds k)
    (same : ∀ i : Fin n, pending main i (s.queues i) = pending s.main i (s.queues i)) :
    Inv sendsEmpty { s with main := main } :=
  ⟨inv.queues, fun i isPending => inv.ready i (by rwa [← same]), fun k bad =>
    absurd bad (notBad k)⟩

/-- Behind a descriptor as much is pending as before, but for that descriptor. -/
theorem pending_succ {k : Nat} (here : s.main = .look k) (differ : i.val ≠ k) (q : Queue) :
    pending (.look (k + 1)) i q = pending s.main i q := by
  have same : decide (k + 1 ≤ i.val) = decide (k ≤ i.val) := by
    rw [decide_eq_decide]
    omega
  rw [here]
  simp only [pending, same]

/-- `main` reads a datagram. -/
theorem Inv.read {d : Bytes} {rest : List Bytes} (inv : Inv sendsEmpty s)
    (here : s.main = .look i.val) (isReady : (s.queues i).revents = true)
    (socket : (s.queues i).socket = d :: rest) (fits : d.length < MAXMSZ)
    (after : q = { s.queues i with socket := rest, read := (s.queues i).read ++ [d] }) :
    Inv sendsEmpty { s.set i q with main := .look (i.val + 1) } ∧
      remaining { s.set i q with main := .look (i.val + 1) } < remaining s := by
  have ok : q.Ok sendsEmpty := after ▸ (inv.queues i).read socket fits
  have done : pending (.look (i.val + 1)) i q = false := by simp [pending]
  have was : pending s.main i (s.queues i) = true := by
    rw [here]
    simp [pending, isReady]
  have others : ∀ j : Fin n, j ≠ i → j.val ≠ i.val := fun j differ same => differ (Fin.ext same)
  refine ⟨⟨fun j => ?_, fun j isPending => ?_, fun k bad => by cases bad⟩, remaining_phase
    (fun j => ?_) ?_⟩
  · by_cases same : j = i
    · simpa [State.set, same] using ok
    · simpa [State.set, same] using inv.queues j
  · by_cases same : j = i
    · subst same
      simp only [State.set, Function.update_self, done] at isPending
      cases isPending
    · simp only [State.set, Function.update_of_ne same] at isPending ⊢
      exact inv.ready j (by rwa [← pending_succ here (others j same)])
  · by_cases same : j = i
    · subst same
      have old : weight s.main j (s.queues j) = 3 * (s.queues j).queue.length +
          2 * (s.queues j).helper.toList.length + rest.length := by
        rw [weight, was, socket, List.length_cons, Bool.toNat_true, Nat.add_sub_cancel]
      have new : weight (.look (j.val + 1)) j q = 3 * (s.queues j).queue.length +
          2 * (s.queues j).helper.toList.length + rest.length := by
        rw [weight, done, after]
        rfl
      rw [old, ← new]
      simp [State.set]
    · simp only [weight, State.set, Function.update_of_ne same,
        pending_succ here (others j same)]
  · rw [here, phase, phase]
    omega

/-- `main` writes behind its buffer. -/
theorem Inv.overflow {k : Nat} {d : Bytes} (inv : Inv sendsEmpty s) (here : s.main = .look k)
    (mem : d ∈ (s.queues i).socket) (isLong : MAXMSZ ≤ d.length) :
    Inv sendsEmpty { s with main := .outOfBounds k } ∧
      remaining { s with main := .outOfBounds k } < remaining s := by
  have same : ∀ j : Fin n, pending (.outOfBounds k) j (s.queues j) =
      pending s.main j (s.queues j) := fun j => by
    rw [here]
    rfl
  refine ⟨⟨inv.queues, fun j isPending => inv.ready j (by rwa [← same]),
    fun _ _ => ⟨i, d, mem, isLong⟩⟩, remaining_phase (fun j => by rw [weight, weight, same]) ?_⟩
  rw [here]
  exact Nat.succ_pos (n - k)

/-- A turn of the loop. -/
theorem Inv.look {k : Nat} (inv : Inv sendsEmpty s) (here : s.main = .look k)
    (stepped : XsiIpc.look s k = some s') : Inv sendsEmpty s' ∧ remaining s' < remaining s := by
  unfold XsiIpc.look at stepped
  split at stepped
  · rename_i inside
    dsimp only at stepped
    split at stepped
    · rename_i isReady
      split at stepped
      · cases stepped
      · rename_i d rest socket
        split at stepped
        · rename_i fits
          obtain rfl := Option.some.inj stepped
          exact inv.read here isReady socket fits rfl
        · rename_i overflows
          obtain rfl := Option.some.inj stepped
          have mem : d ∈ (s.queues ⟨k, inside⟩).socket := by
            rw [socket]
            exact List.mem_cons_self
          exact inv.overflow here mem (Nat.le_of_not_lt overflows)
    · rename_i notReady
      obtain rfl := Option.some.inj stepped
      have same : ∀ i : Fin n, pending (.look (k + 1)) i (s.queues i) =
          pending s.main i (s.queues i) := by
        intro i
        by_cases same : i.val = k
        · obtain rfl : i = ⟨k, inside⟩ := Fin.ext same
          rw [here]
          simp [pending, notReady]
        · exact pending_succ here same _
      refine ⟨inv.pass (fun _ => Main.noConfusion) same,
        remaining_phase (fun i => by rw [weight, weight, same]) ?_⟩
      rw [here, phase, phase]
      omega
  · rename_i outside
    obtain rfl := Option.some.inj stepped
    have same : ∀ i : Fin n, pending .poll i (s.queues i) = pending s.main i (s.queues i) := by
      intro i
      have before : ¬ k ≤ i.val := by omega
      rw [here]
      simp [pending, before]
    refine ⟨inv.pass (fun _ => Main.noConfusion) same,
      remaining_phase (fun i => by rw [weight, weight, same]) ?_⟩
    rw [here]
    exact Nat.succ_pos (n - k)

/-- An event of the program leaves less to do. -/
theorem Inv.step_internal (inv : Inv sendsEmpty s) (internal : event.Internal)
    (stepped : XsiIpc.step cap sendsEmpty s event = some s') :
    Inv sendsEmpty s' ∧ remaining s' < remaining s := by
  cases event with
  | msgsnd i m => exact internal.elim
  | msgrcv i =>
    obtain ⟨q, received, rfl⟩ := Option.map_eq_some_iff.mp stepped
    obtain ⟨same, socket, lower⟩ := msgrcv_spec received
    exact ⟨inv.set ((inv.queues i).msgrcv received) same (socket ▸ List.prefix_refl _),
      remaining_set (lower s.main i)⟩
  | write i =>
    obtain ⟨q, written, rfl⟩ := Option.map_eq_some_iff.mp stepped
    obtain ⟨same, more, lower⟩ := write_spec written
    exact ⟨inv.set ((inv.queues i).write written) same more, remaining_set (lower s.main i)⟩
  | poll =>
    simp only [XsiIpc.step] at stepped
    split at stepped
    · rename_i returns
      exact inv.poll returns.1 returns.2 (Option.some.inj stepped).symm
    · cases stepped
  | look =>
    simp only [XsiIpc.step] at stepped
    split at stepped
    · rename_i k here
      exact inv.look here stepped
    · cases stepped

/-- Every event keeps what holds. -/
theorem Inv.step (inv : Inv sendsEmpty s)
    (stepped : XsiIpc.step cap sendsEmpty s event = some s') : Inv sendsEmpty s' := by
  cases event with
  | msgsnd i m =>
    obtain rfl := Option.some.inj stepped
    exact inv.set ((inv.queues i).msgsnd m) rfl (List.prefix_refl _)
  | msgrcv i =>
    have internal : Event.Internal (.msgrcv i : Event n) := trivial
    exact (inv.step_internal internal stepped).1
  | write i =>
    have internal : Event.Internal (.write i : Event n) := trivial
    exact (inv.step_internal internal stepped).1
  | poll =>
    have internal : Event.Internal (.poll : Event n) := trivial
    exact (inv.step_internal internal stepped).1
  | look =>
    have internal : Event.Internal (.look : Event n) := trivial
    exact (inv.step_internal internal stepped).1

/-- `main` does not wait in its loop. -/
theorem Inv.look_goes {k : Nat} (inv : Inv sendsEmpty s) (here : s.main = .look k) :
    XsiIpc.look s k ≠ none := by
  unfold XsiIpc.look
  split
  · rename_i inside
    dsimp only
    split
    · rename_i isReady
      have nonempty := inv.ready ⟨k, inside⟩ (by
        rw [here]
        simp [pending, isReady])
      split
      · rename_i isNil
        exact absurd isNil nonempty
      · split
        · exact Option.some_ne_none _
        · exact Option.some_ne_none _
    · exact Option.some_ne_none _
  · exact Option.some_ne_none _

/-- When nothing can happen before `poll`, a queue and its socket are empty. -/
theorem at_rest (room : 0 < cap)
    (stuck : Machine.Stuck (XsiIpc.step cap sendsEmpty) Event.Internal s)
    (isPoll : s.main = .poll) (i : Fin n) : (s.queues i).socket = [] ∧
      (s.queues i).helper = none ∧ (s.queues i).queue = [] := by
  have socket : (s.queues i).socket = [] := by
    have quiet := stuck .poll trivial
    simp only [XsiIpc.step, isPoll, true_and] at quiet
    split at quiet
    · cases quiet
    · rename_i noneReady
      by_contra nonempty
      exact noneReady ⟨i, by simpa [Queue.ready] using nonempty⟩
  have helper : (s.queues i).helper = none := by
    have quiet := stuck (.write i) trivial
    simp only [XsiIpc.step, Option.map_eq_none_iff, Queue.write] at quiet
    split at quiet
    · assumption
    · split at quiet
      · cases quiet
      · rw [socket, List.length_nil, if_pos room] at quiet
        cases quiet
  have queue : (s.queues i).queue = [] := by
    have quiet := stuck (.msgrcv i) trivial
    simp only [XsiIpc.step, Option.map_eq_none_iff, Queue.msgrcv, helper] at quiet
    cases left_ : (s.queues i).queue with
    | nil => rfl
    | cons m rest =>
      rw [left_] at quiet
      cases quiet
  exact ⟨socket, helper, queue⟩

/-- `sendmsg` sends short messages without a `NUL`. -/
theorem sendmsg_fits (argument : Bytes) : (sendmsg argument).length < MAXMSZ ∧
    cString (sendmsg argument) = sendmsg argument := by
  constructor
  · have short := List.length_take_le (MAXMSZ - 1) (cString argument)
    exact Nat.lt_of_le_of_lt short (by decide)
  · rw [cString, List.takeWhile_eq_self_iff]
    intro c mem
    have inPrefix : c ∈ argument.takeWhile (· ≠ 0) := List.mem_of_mem_take mem
    have other := List.mem_takeWhile_imp inPrefix
    exact other

/-- Messages of `sendmsg` are printed as they are. -/
theorem printed_sendmsg {ms : List Bytes} (all : ∀ m ∈ ms, ∃ argument, m = sendmsg argument) :
    (datagrams sendsEmpty ms).map cString = ms.filter (passes sendsEmpty) := by
  have whole : ms.map (·.take MAXMSZ) = ms := by
    refine (List.map_congr_left fun m mem => ?_).trans (List.map_id ms)
    obtain ⟨argument, rfl⟩ := all m mem
    exact List.take_of_length_le (Nat.le_of_lt (sendmsg_fits argument).1)
  rw [datagrams, whole]
  refine (List.map_congr_left fun m mem => ?_).trans (List.map_id _)
  obtain ⟨argument, rfl⟩ := all m (List.mem_of_mem_filter mem)
  exact (sendmsg_fits argument).2

/-- What the program guarantees in the state that a run reaches. -/
structure Relays (cap : Nat) (sendsEmpty : Bool) (s : State n) : Prop where
  /-- For every queue the datagrams are read in the order of the messages, or still to come. -/
  account : ∀ i, (s.queues i).Ok sendsEmpty
  /-- `main` never waits for a socket that `poll` has not reported. -/
  looks : ∀ k, s.main = .look k → look s k ≠ none
  /-- `main` writes behind its buffer only after a message of `MAXMSZ` bytes or more. -/
  bounds : ∀ k, s.main = .outOfBounds k → ∃ i, ∃ m ∈ (s.queues i).sent, MAXMSZ ≤ m.length
  /-- There is a bound on the events of the program that follow. -/
  ends : ∃ bound, ∀ later s', (∀ event ∈ later, event.Internal) →
    Machine.run (XsiIpc.step cap sendsEmpty) s later = some s' → later.length ≤ bound
  /-- When no event can happen, `main` has written behind its buffer, or every message was short
  and is printed. -/
  rests : Machine.Stuck (XsiIpc.step cap sendsEmpty) Event.Internal s →
    (∃ k, s.main = .outOfBounds k) ∨ s.main = .poll ∧ ∀ i,
      (s.queues i).printed = (datagrams sendsEmpty (s.queues i).sent).map cString ∧
      ∀ d ∈ datagrams sendsEmpty (s.queues i).sent, d.length < MAXMSZ
  /-- Messages of `sendmsg` keep `main` within its buffer, and all are printed as they are. -/
  sendmsg : (∀ i, ∀ m ∈ (s.queues i).sent, ∃ argument, m = sendmsg argument) →
    (∀ k, s.main ≠ .outOfBounds k) ∧
    (Machine.Stuck (XsiIpc.step cap sendsEmpty) Event.Internal s →
      ∀ i, (s.queues i).printed = (s.queues i).sent.filter (passes sendsEmpty))

/-- Any number of queues with their threads, any messages and any order of the steps: each queue's
messages are printed in their order, cut to `MAXMSZ` bytes and at their first `NUL`, unless one
fills the buffer. -/
theorem messages_printed {events : List (Event n)} (room : 0 < cap)
    (ran : Machine.run (XsiIpc.step cap sendsEmpty) (start n) events = some s) :
    Relays cap sendsEmpty s := by
  have inv : Inv sendsEmpty s :=
    Machine.run_keeps (fun _ _ _ inv stepped => inv.step stepped) start_inv ran
  have bounds : ∀ k, s.main = .outOfBounds k →
      ∃ i, ∃ m ∈ (s.queues i).sent, MAXMSZ ≤ m.length := by
    intro k bad
    obtain ⟨i, d, mem, isLong⟩ := inv.long k bad
    obtain ⟨m, isSent, rfl⟩ := (inv.queues i).origin mem
    exact ⟨i, m, isSent, Nat.le_trans isLong (List.length_take_le' _ _)⟩
  have rests : Machine.Stuck (XsiIpc.step cap sendsEmpty) Event.Internal s →
      (∃ k, s.main = .outOfBounds k) ∨ s.main = .poll ∧ ∀ i,
        (s.queues i).printed = (datagrams sendsEmpty (s.queues i).sent).map cString ∧
        ∀ d ∈ datagrams sendsEmpty (s.queues i).sent, d.length < MAXMSZ := by
    intro stuck
    cases here : s.main with
    | outOfBounds k => exact .inl ⟨k, rfl⟩
    | look k =>
      have quiet := stuck .look trivial
      simp only [XsiIpc.step, here] at quiet
      exact absurd quiet (inv.look_goes here)
    | poll =>
      refine .inr ⟨rfl, fun i => ?_⟩
      obtain ⟨socket, helper, queue⟩ := at_rest room stuck here i
      have account := (inv.queues i).account
      rw [socket, helper, queue] at account
      have same : datagrams sendsEmpty (s.queues i).sent = (s.queues i).read := by
        simpa [datagrams] using account
      rw [same]
      exact ⟨rfl, (inv.queues i).short⟩
  refine ⟨inv.queues, fun k here => inv.look_goes here, bounds, ⟨remaining s, ?_⟩, rests, ?_⟩
  · intro later s' internal ran'
    have lowers : ∀ (s : State n) event s', Inv sendsEmpty s → Event.Internal event →
        XsiIpc.step cap sendsEmpty s event = some s' →
        Inv sendsEmpty s' ∧ remaining s' < remaining s :=
      fun _ _ _ inv internal stepped => inv.step_internal internal stepped
    exact Machine.run_length_le_of lowers inv internal ran'
  · intro fits
    have inside : ∀ k, s.main ≠ .outOfBounds k := by
      intro k bad
      obtain ⟨i, m, isSent, isLong⟩ := bounds k bad
      obtain ⟨argument, rfl⟩ := fits i m isSent
      exact absurd (sendmsg_fits argument).1 (Nat.not_lt.mpr isLong)
    refine ⟨inside, fun stuck i => ?_⟩
    rcases rests stuck with ⟨k, bad⟩ | ⟨-, printed⟩
    · exact absurd bad (inside k)
    · rw [(printed i).1, printed_sendmsg (fits i)]

/-- The first of two queues. -/
def firstQueue : Fin 2 := ⟨0, Nat.two_pos⟩

/-- The second of two queues. -/
def secondQueue : Fin 2 := ⟨1, Nat.one_lt_two⟩

/-- Two processes send to the first queue, one of them a text with a `NUL`; its messages and one of
the second queue are received and written while `main` prints. -/
def twoQueues : List (Event 2) :=
  [.msgsnd firstQueue [104, 105], .msgsnd secondQueue [7], .msgrcv firstQueue, .write firstQueue,
    .msgsnd firstQueue [65, 0, 66], .poll, .msgrcv secondQueue, .look, .write secondQueue,
    .msgrcv firstQueue, .look, .look, .write firstQueue, .poll, .look, .look, .look]

/-- In that run all messages are printed. -/
theorem messages_printed_two : ∃ s, Machine.run (XsiIpc.step 1 true) (start 2) twoQueues = some s ∧
    (s.queues firstQueue).printed = [[104, 105], [65]] ∧ (s.queues secondQueue).printed = [[7]] ∧
    Relays 1 true s := by
  have ends : (Machine.run (XsiIpc.step 1 true) (start 2) twoQueues).map
      (fun s => ((s.queues firstQueue).printed, (s.queues secondQueue).printed)) =
        some ([[104, 105], [65]], [[7]]) := by decide +kernel
  obtain ⟨s, ran, parts⟩ := Option.map_eq_some_iff.mp ends
  rw [Prod.mk.injEq] at parts
  exact ⟨s, ran, parts.1, parts.2, messages_printed Nat.one_pos ran⟩

end Steps

end CodeLearning.XsiIpc
