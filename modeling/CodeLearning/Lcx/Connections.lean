import CodeLearning.Lcx.Options
import CodeLearning.Lib.Machine
import Mathlib.Data.List.Perm.Basic
import Mathlib.Logic.Function.Basic

/-!
# The connections of the port relay

`bind2bind`, `bind2conn` and `conn2conn` make one pair of connections after the other, by `accept`
or by `connect`, and leave each pair to a child that relays between them. Any of the calls may fail.
`create_socket` returns `0` when it fails, which is also a descriptor. Connections are numbered in
the order in which they come about.
-/

namespace CodeLearning.Lcx

/-- What a descriptor of the parent stands for. -/
inductive Desc where
  /-- A file that was open before the loop, or a listening socket. -/
  | other
  /-- A socket that is not connected. -/
  | socket
  /-- A connection, and whether a child relays it. -/
  | connected (n : Nat) (relayed : Bool)
deriving DecidableEq

/-- The next call of the loop. -/
inductive Pc where
  /-- `accept` on the first port. -/
  | accept1
  /-- `accept` on the second port. -/
  | accept2 (sockfd1 : Nat)
  /-- The first `create_socket`. -/
  | socket1
  /-- The second `create_socket`, or the only one. -/
  | socket2 (sockfd1 : Nat)
  /-- `client_connect` to the first host. -/
  | connect1 (sockfd1 sockfd2 : Nat)
  /-- `client_connect` to the second host, or the only one. -/
  | connect2 (sockfd1 sockfd2 : Nat)
  /-- `fork`. -/
  | fork (sockfd1 sockfd2 : Nat)
  /-- These calls of `close`, and whether the loop is left then. -/
  | close (fds : List Nat) (leaves : Bool)
  /-- The loop is left. -/
  | ended
deriving DecidableEq

/-- The descriptors in the variables of the loop. -/
def Pc.inUse : Pc → List Nat
  | .accept2 sockfd1 => [sockfd1]
  | .socket2 sockfd1 => [sockfd1]
  | .connect1 sockfd1 sockfd2 => [sockfd1, sockfd2]
  | .connect2 sockfd1 sockfd2 => [sockfd1, sockfd2]
  | .fork sockfd1 sockfd2 => [sockfd1, sockfd2]
  | .close fds _ => fds
  | _ => []

/-- What the next call does. -/
inductive Event where
  /-- `accept` returns a descriptor or fails. -/
  | accept (fd : Option Nat)
  /-- `socket` returns a descriptor or fails. -/
  | socket (fd : Option Nat)
  /-- `client_connect`, and whether it connects. -/
  | connect (ok : Bool)
  /-- `fork`, in the parent, and whether there is a child. -/
  | fork (ok : Bool)
  /-- `close`. -/
  | close
deriving DecidableEq

/-- The parent, and what became of the connections. -/
structure Parent where
  /-- The next call. -/
  pc : Pc
  /-- Its descriptors. -/
  fds : Nat → Option Desc
  /-- How many connections there were. -/
  made : Nat
  /-- The connections that each child relays. -/
  children : List (Nat × Nat)
  /-- Connections that were closed and that no child relays. -/
  dropped : List Nat

/-- The first call of a turn. -/
def Method.first : Method → Pc
  | .slave => .socket1
  | _ => .accept1

/-- The parent with a descriptor set. -/
def Parent.set (s : Parent) (fd : Nat) (desc : Desc) : Parent :=
  { s with fds := Function.update s.fds fd (some desc) }

/-- The parent with a descriptor that stands for a new connection. -/
def Parent.establish (s : Parent) (fd : Nat) : Parent :=
  { s.set fd (.connected s.made false) with made := s.made + 1 }

/-- The parent goes on to another call. -/
def Parent.goTo (s : Parent) (pc : Pc) : Parent := { s with pc := pc }

/-- `close`. -/
def Parent.closeFd (s : Parent) (fd : Nat) : Parent :=
  { s with
    fds := Function.update s.fds fd none
    dropped := match s.fds fd with
      | some (.connected n false) => n :: s.dropped
      | _ => s.dropped }

/-- `create_socket`: what it returns, and the parent after it. -/
def createSocket (s : Parent) : Option Nat → Nat × Parent
  | none => (0, s)
  | some fd => (fd, s.set fd .socket)

/-- A child starts to relay a pair. -/
def Parent.relay (s : Parent) (sockfd1 sockfd2 : Nat) : Parent :=
  match s.fds sockfd1, s.fds sockfd2 with
  | some (.connected n _), some (.connected m _) =>
    { (s.set sockfd1 (.connected n true)).set sockfd2 (.connected m true) with
      children := (n, m) :: s.children }
  | _, _ => s

/-- A new descriptor is one that was not open. -/
def Fresh (s : Parent) : Option Nat → Prop
  | none => True
  | some fd => s.fds fd = none

/-- Whether it is can be decided. -/
instance decidableFresh (s : Parent) (fd : Option Nat) : Decidable (Fresh s fd) := by
  cases fd with
  | none => exact .isTrue trivial
  | some fd => exact inferInstanceAs (Decidable (s.fds fd = none))

/-- A call of `bind2bind` (`listen`), `bind2conn` (`tran`) or `conn2conn` (`slave`). -/
def step (method : Method) (s : Parent) : Event → Option Parent
  | .accept outcome =>
    if Fresh s outcome then
      match s.pc, outcome with
      | .accept1, none => some (s.goTo .accept1)
      | .accept1, some fd =>
        some ((s.establish fd).goTo (if method = .listen then .accept2 fd else .socket2 fd))
      | .accept2 sockfd1, none => some (s.goTo (.close [sockfd1] false))
      | .accept2 sockfd1, some fd => some ((s.establish fd).goTo (.fork sockfd1 fd))
      | _, _ => none
    else none
  | .socket outcome =>
    if Fresh s outcome then
      let (sockfd, t) := createSocket s outcome
      match s.pc with
      | .socket1 => some (t.goTo (if sockfd = 0 then .ended else .socket2 sockfd))
      | .socket2 sockfd1 =>
        if sockfd = 0 then
          some (t.goTo (if method = .slave then .ended else .close [sockfd1] false))
        else
          some (t.goTo (if method = .slave then .connect1 sockfd1 sockfd
            else .connect2 sockfd1 sockfd))
      | _ => none
    else none
  | .connect ok =>
    match s.pc with
    | .connect1 sockfd1 sockfd2 =>
      some (if ok then (s.establish sockfd1).goTo (.connect2 sockfd1 sockfd2)
        else s.goTo (.close [sockfd1, sockfd2] true))
    | .connect2 sockfd1 sockfd2 =>
      some (if ok then (s.establish sockfd2).goTo (.fork sockfd1 sockfd2)
        else if method = .slave then s.goTo (.close [sockfd1, sockfd2] true)
        else s.goTo (.close [sockfd2, sockfd1] false))
    | _ => none
  | .fork ok =>
    match s.pc with
    | .fork sockfd1 sockfd2 =>
      some ((if ok then s.relay sockfd1 sockfd2 else s).goTo (.close [sockfd1, sockfd2] false))
    | _ => none
  | .close =>
    match s.pc with
    | .close [] leaves => some (s.goTo (if leaves then .ended else method.first))
    | .close (fd :: fds) leaves => some ((s.closeFd fd).goTo (.close fds leaves))
    | _ => none

/-- The parent before the first turn. -/
def start (method : Method) (fds : Nat → Option Desc) : Parent := ⟨method.first, fds, 0, [], []⟩

/-! ## What holds in every state -/

/-- The connection that a descriptor stands for, if no child relays it. -/
def Desc.unrelayed : Desc → Option Nat
  | .connected n false => some n
  | _ => none

/-- The connections that the parent holds and no child relays. -/
def held (fds : Nat → Option Desc) (inUse : List Nat) : List Nat :=
  inUse.filterMap fun fd => (fds fd).bind Desc.unrelayed

/-- The connections that children relay. -/
def relayed (children : List (Nat × Nat)) : List Nat :=
  children.flatMap fun pair => [pair.1, pair.2]

/-- What the variables of the loop stand for before a call. -/
def Ready (method : Method) (fds : Nat → Option Desc) (made : Nat) : Pc → Prop
  | .accept1 => method ≠ .slave
  | .socket1 => method = .slave
  | .accept2 sockfd1 => ∃ n, made = n + 1 ∧ fds sockfd1 = some (.connected n false)
  | .socket2 sockfd1 =>
    if method = .slave then fds sockfd1 = some .socket
    else ∃ n, made = n + 1 ∧ fds sockfd1 = some (.connected n false)
  | .connect1 sockfd1 sockfd2 =>
    method = .slave ∧ fds sockfd1 = some .socket ∧ fds sockfd2 = some .socket
  | .connect2 sockfd1 sockfd2 =>
    ∃ n, made = n + 1 ∧ fds sockfd1 = some (.connected n false) ∧ fds sockfd2 = some .socket
  | .fork sockfd1 sockfd2 =>
    ∃ n, made = n + 2 ∧ fds sockfd1 = some (.connected n false) ∧
      fds sockfd2 = some (.connected (n + 1) false)
  | .close _ leaves => leaves = true → method = .slave
  | .ended => method = .slave

/-- The descriptors are those that were open before the loop and those in its variables, and every
connection is relayed by one child, dropped, or in a variable. -/
structure Inv (method : Method) (before : Nat → Option Desc) (s : Parent) : Prop where
  /-- Other descriptors are as before the loop. -/
  outside : ∀ fd, fd ∉ s.pc.inUse → s.pc ≠ .ended → s.fds fd = before fd
  /-- The descriptors in the variables were not open. -/
  inside : ∀ fd ∈ s.pc.inUse, before fd = none
  /-- The variables are different descriptors. -/
  distinct : s.pc.inUse.Nodup
  /-- What they stand for. -/
  ready : Ready method s.fds s.made s.pc
  /-- A child has two connections that came about one after the other. -/
  pairs : ∀ pair ∈ s.children, pair.2 = pair.1 + 1
  /-- Where each connection is. -/
  accounted : (relayed s.children ++ s.dropped ++ held s.fds s.pc.inUse).Perm (List.range s.made)

section Steps

variable {method : Method} {before : Nat → Option Desc} {s s' : Parent} {event : Event} {pc : Pc}
  {fd made : Nat} {desc : Desc}

/-- The first call of a turn needs no variable. -/
theorem ready_first {fds : Nat → Option Desc} : Ready method fds made method.first := by
  cases method
  · exact Method.noConfusion
  · exact Method.noConfusion
  · rfl
  · exact Method.noConfusion

/-- No variable has a descriptor then. -/
theorem first_inUse : method.first.inUse = [] := by
  cases method <;> rfl

/-- It holds before the first turn. -/
theorem start_inv (method : Method) (before : Nat → Option Desc) :
    Inv method before (start method before) := by
  refine ⟨fun _ _ _ => rfl, ?_, ?_, ?_, ?_, ?_⟩
  · simp [start, first_inUse]
  · simp [start, first_inUse]
  · exact ready_first
  · simp [start]
  · simp [start, first_inUse, relayed, held]

/-- A new descriptor is in no variable and was not open. -/
theorem Inv.fresh (inv : Inv method before s) (fresh : s.fds fd = none) (running : s.pc ≠ .ended)
    (full : ∀ fd ∈ s.pc.inUse, s.fds fd ≠ none) : fd ∉ s.pc.inUse ∧ before fd = none := by
  have unused : fd ∉ s.pc.inUse := fun mem => full fd mem fresh
  exact ⟨unused, by rw [← inv.outside fd unused running, fresh]⟩

/-- The variables keep their descriptors. -/
theorem Inv.goTo (inv : Inv method before s) (same : pc.inUse.Perm s.pc.inUse)
    (running : s.pc ≠ .ended) (ready : Ready method s.fds s.made pc) :
    Inv method before (s.goTo pc) where
  outside fd unused _ := inv.outside fd (fun mem => unused (same.mem_iff.mpr mem)) running
  inside fd mem := inv.inside fd (same.mem_iff.mp mem)
  distinct := same.nodup_iff.mpr inv.distinct
  ready := ready
  pairs := inv.pairs
  accounted := ((same.filterMap _).append_left _).trans inv.accounted

/-- The loop is left while no variable has a connection. -/
theorem Inv.ended (inv : Inv method before s) (none_ : held s.fds s.pc.inUse = [])
    (slave : method = .slave) :
    Inv method before (s.goTo .ended) where
  outside _ _ running := absurd rfl running
  inside := by simp [Parent.goTo, Pc.inUse]
  distinct := by simp [Parent.goTo, Pc.inUse]
  ready := slave
  pairs := inv.pairs
  accounted := by
    have accounted := inv.accounted
    rw [none_] at accounted
    exact accounted

/-- A descriptor that is in no variable does not matter for what the variables hold. -/
theorem held_update {fds : Nat → Option Desc} {inUse : List Nat} {x : Option Desc}
    (unused : fd ∉ inUse) : held (Function.update fds fd x) inUse = held fds inUse := by
  refine List.filterMap_congr fun fd' mem => ?_
  rw [Function.update_of_ne]
  rintro rfl
  exact unused mem

/-- One more variable. -/
theorem held_append (fds : Nat → Option Desc) (inUse : List Nat) (fd : Nat) :
    held fds (inUse ++ [fd]) = held fds inUse ++ ((fds fd).bind Desc.unrelayed).toList := by
  rw [held, List.filterMap_append]
  congr 1

/-- A new descriptor is put in a variable. -/
theorem Inv.gain (made : Nat) (inv : Inv method before s) (fresh : s.fds fd = none)
    (running : s.pc ≠ .ended) (full : ∀ fd ∈ s.pc.inUse, s.fds fd ≠ none)
    (uses : pc.inUse = s.pc.inUse ++ [fd])
    (range : List.range made = List.range s.made ++ desc.unrelayed.toList)
    (ready : Ready method (Function.update s.fds fd (some desc)) made pc) :
    Inv method before { (s.set fd desc).goTo pc with made := made } := by
  obtain ⟨unused, closed⟩ := inv.fresh fresh running full
  refine ⟨fun fd' outside _ => ?_, fun fd' mem => ?_, ?_, ready, inv.pairs, ?_⟩
  · have differ : fd' ∉ s.pc.inUse ∧ fd' ≠ fd := by
      simpa [Parent.goTo, uses] using outside
    simp only [Parent.goTo, Parent.set, Function.update_of_ne differ.2]
    exact inv.outside fd' differ.1 running
  · simp only [Parent.goTo, uses, List.mem_append, List.mem_singleton] at mem
    rcases mem with old | rfl
    · exact inv.inside fd' old
    · exact closed
  · simp only [Parent.goTo, uses]
    rw [List.nodup_append]
    exact ⟨inv.distinct, by simp, fun a memA b memB same => by
      rw [List.mem_singleton] at memB
      exact unused (memB ▸ same ▸ memA)⟩
  · simp only [Parent.goTo, Parent.set, uses, held_append, held_update unused,
      Function.update_self, Option.bind_some, range]
    rw [← List.append_assoc]
    exact inv.accounted.append_right _

/-- A socket in a variable becomes a connection. -/
theorem Inv.connect (front back : List Nat) (inv : Inv method before s) (running : s.pc ≠ .ended)
    (here : s.pc.inUse = front ++ fd :: back) (idle : s.fds fd = some .socket)
    (last : held s.fds back = []) (uses : pc.inUse = s.pc.inUse)
    (ready : Ready method (Function.update s.fds fd (some (.connected s.made false))) (s.made + 1)
      pc) : Inv method before ((s.establish fd).goTo pc) := by
  have distinct := inv.distinct
  rw [here, List.nodup_append] at distinct
  have notFront : fd ∉ front := fun mem => distinct.2.2 fd mem fd List.mem_cons_self rfl
  have notBack : fd ∉ back := (List.nodup_cons.mp distinct.2.1).1
  refine ⟨fun fd' outside _ => ?_, ?_, ?_, ready, inv.pairs, ?_⟩
  · have unused : fd' ∉ s.pc.inUse := by rwa [Parent.goTo, uses] at outside
    have differ : fd' ≠ fd := by
      rintro rfl
      exact unused (by simp [here])
    simp only [Parent.goTo, Parent.establish, Parent.set, Function.update_of_ne differ]
    exact inv.outside fd' unused running
  · show ∀ fd ∈ pc.inUse, before fd = none
    rw [uses]
    exact inv.inside
  · show pc.inUse.Nodup
    rw [uses]
    exact inv.distinct
  · have old : held s.fds s.pc.inUse = held s.fds front := by
      have none_ : held s.fds (fd :: back) = [] := by
        rw [held, List.filterMap_cons_none (by rw [idle]; rfl)]
        exact last
      rw [here, held, List.filterMap_append, ← held, ← held, none_, List.append_nil]
    have new : held (Function.update s.fds fd (some (.connected s.made false))) pc.inUse =
        held s.fds front ++ [s.made] := by
      have one : held (Function.update s.fds fd (some (.connected s.made false))) (fd :: back) =
          [s.made] := by
        rw [held, List.filterMap_cons_some (b := s.made) (by simp [Desc.unrelayed]), ← held,
          held_update notBack, last]
      rw [uses, here, held, List.filterMap_append, ← held, ← held, held_update notFront, one]
    show (relayed s.children ++ s.dropped ++ held _ pc.inUse).Perm (List.range (s.made + 1))
    rw [Parent.goTo, Parent.establish, Parent.set]
    rw [new, List.range_succ, ← List.append_assoc, ← old]
    exact inv.accounted.append_right _

/-- `close`. -/
theorem Inv.closeFd {fds : List Nat} {leaves : Bool} (inv : Inv method before s)
    (here : s.pc = .close (fd :: fds) leaves) :
    Inv method before ((s.closeFd fd).goTo (.close fds leaves)) := by
  have uses : s.pc.inUse = fd :: fds := by rw [here]; rfl
  have distinct := inv.distinct
  rw [uses] at distinct
  obtain ⟨unused, others⟩ := List.nodup_cons.mp distinct
  have running : s.pc ≠ .ended := by simp [here]
  have ready := inv.ready
  rw [here] at ready
  refine ⟨fun fd' outside _ => ?_, fun fd' mem => ?_, others, ready, inv.pairs, ?_⟩
  · by_cases same : fd' = fd
    · subst same
      simp only [Parent.goTo, Parent.closeFd, Function.update_self]
      exact (inv.inside fd' (by rw [uses]; exact List.mem_cons_self)).symm
    · simp only [Parent.goTo, Parent.closeFd, Function.update_of_ne same]
      refine inv.outside fd' ?_ running
      rw [uses, List.mem_cons, not_or]
      exact ⟨same, outside⟩
  · exact inv.inside fd' (by rw [uses]; exact List.mem_cons_of_mem fd mem)
  · have accounted := inv.accounted
    rw [uses] at accounted
    show (relayed s.children ++ (s.closeFd fd).dropped ++
      held (Function.update s.fds fd none) fds).Perm (List.range s.made)
    rw [held_update unused]
    refine List.Perm.trans ?_ accounted
    rw [List.perm_iff_count]
    intro n
    cases open_ : s.fds fd with
    | none => simp [Parent.closeFd, held, open_]
    | some desc =>
      cases desc with
      | other => simp [Parent.closeFd, held, open_, Desc.unrelayed]
      | socket => simp [Parent.closeFd, held, open_, Desc.unrelayed]
      | connected m relayed =>
        cases relayed with
        | true => simp [Parent.closeFd, held, open_, Desc.unrelayed]
        | false =>
          simp only [Parent.closeFd, held, open_, Desc.unrelayed, List.count_append,
            List.count_cons, List.filterMap_cons, Option.bind_some]
          omega

/-- A child relays the pair. -/
theorem Inv.relay {sockfd1 sockfd2 : Nat} (inv : Inv method before s)
    (here : s.pc = .fork sockfd1 sockfd2) :
    Inv method before ((s.relay sockfd1 sockfd2).goTo (.close [sockfd1, sockfd2] false)) := by
  have uses : s.pc.inUse = [sockfd1, sockfd2] := by rw [here]; rfl
  have running : s.pc ≠ .ended := by simp [here]
  have ready := inv.ready
  rw [here] at ready
  obtain ⟨n, count, first, second⟩ := ready
  have differ : sockfd1 ≠ sockfd2 := by
    have distinct := inv.distinct
    rw [uses] at distinct
    simpa using distinct
  have accounted := inv.accounted
  rw [uses] at accounted
  refine ⟨fun fd' outside _ => ?_, fun fd' mem => ?_, ?_, nofun, ?_, ?_⟩
  · have unused : fd' ≠ sockfd1 ∧ fd' ≠ sockfd2 := by simpa [Pc.inUse, Parent.goTo] using outside
    simp only [Parent.goTo, Parent.relay, first, second, Parent.set,
      Function.update_of_ne unused.1, Function.update_of_ne unused.2]
    exact inv.outside fd' (by simp [uses, unused]) running
  · exact inv.inside fd' (by rw [uses]; exact mem)
  · have distinct := inv.distinct
    rwa [uses] at distinct
  · simp only [Parent.goTo, Parent.relay, first, second, List.forall_mem_cons, true_and]
    exact inv.pairs
  · have made : ((s.relay sockfd1 sockfd2).goTo (.close [sockfd1, sockfd2] false)).made =
        s.made := by
      simp only [Parent.goTo, Parent.relay, first, second, Parent.set]
    rw [made]
    refine List.Perm.trans ?_ accounted
    rw [List.perm_iff_count]
    intro m
    simp only [Parent.goTo, Parent.relay, first, second, Parent.set, held, relayed, Pc.inUse,
      List.filterMap_cons, List.filterMap_nil, Function.update_self, Function.update_of_ne differ,
      Option.bind_some, Desc.unrelayed, List.flatMap_cons, List.count_append, List.count_cons,
      List.count_nil]
    omega

/-- A call of `accept`. -/
theorem Inv.step_accept {outcome : Option Nat} (inv : Inv method before s)
    (stepped : Lcx.step method s (.accept outcome) = some s') : Inv method before s' := by
  have ready := inv.ready
  simp only [Lcx.step] at stepped
  split at stepped
  · rename_i fresh
    split at stepped
    · rename_i here
      rw [here] at ready
      rw [Option.some.injEq] at stepped
      subst stepped
      exact inv.goTo (by rw [here]) (by simp [here]) ready
    · rename_i fd here
      rw [here] at ready
      rw [Option.some.injEq] at stepped
      have new : ∃ n, s.made + 1 = n + 1 ∧
          Function.update s.fds fd (some (.connected s.made false)) fd =
            some (.connected n false) := ⟨s.made, rfl, Function.update_self ..⟩
      by_cases listening : method = .listen
      · rw [if_pos listening] at stepped
        subst stepped
        exact inv.gain (s.made + 1) fresh (by simp [here]) (by simp [here, Pc.inUse])
          (by rw [here]; rfl) List.range_succ new
      · rw [if_neg listening] at stepped
        subst stepped
        refine inv.gain (s.made + 1) fresh (by simp [here]) (by simp [here, Pc.inUse])
          (by rw [here]; rfl) List.range_succ ?_
        rw [Ready, if_neg ready]
        exact new
    · rename_i sockfd1 here
      rw [Option.some.injEq] at stepped
      subst stepped
      exact inv.goTo (by rw [here]; exact .refl _) (by simp [here]) nofun
    · rename_i sockfd1 fd here
      rw [here] at ready
      obtain ⟨n, count, first⟩ := ready
      have differ : sockfd1 ≠ fd := by
        rintro rfl
        simp [Fresh, first] at fresh
      rw [Option.some.injEq] at stepped
      subst stepped
      refine inv.gain (s.made + 1) fresh (by simp [here]) (by simp [here, Pc.inUse, first])
        (by rw [here]; rfl) List.range_succ ⟨n, by omega, ?_, ?_⟩
      · rw [Function.update_of_ne differ, first]
      · rw [Function.update_self, count]
    · cases stepped
  · cases stepped

/-- A call of `create_socket`, while the descriptor `0` is open. -/
theorem Inv.step_socket {outcome : Option Nat} (inv : Inv method before s)
    (zero : before 0 ≠ none) (stepped : Lcx.step method s (.socket outcome) = some s') :
    Inv method before s' := by
  have ready := inv.ready
  simp only [Lcx.step] at stepped
  split at stepped
  · rename_i fresh
    cases outcome with
    | none =>
      simp only [createSocket, if_true] at stepped
      split at stepped
      · rename_i here
        rw [Option.some.injEq] at stepped
        subst stepped
        exact inv.ended (by simp [here, held, Pc.inUse]) (by rwa [here] at ready)
      · rename_i sockfd1 here
        rw [here] at ready
        rw [Option.some.injEq] at stepped
        subst stepped
        by_cases slave : method = .slave
        · rw [Ready, if_pos slave] at ready
          rw [if_pos slave]
          exact inv.ended (by simp [here, held, Pc.inUse, ready, Desc.unrelayed]) slave
        · rw [if_neg slave]
          exact inv.goTo (by rw [here]; exact .refl _) (by simp [here]) nofun
      · cases stepped
    | some fd =>
      simp only [createSocket] at stepped
      split at stepped
      · rename_i here
        rw [here] at ready
        have full : ∀ fd ∈ s.pc.inUse, s.fds fd ≠ none := by simp [here, Pc.inUse]
        obtain ⟨-, closed⟩ := inv.fresh fresh (by simp [here]) full
        have positive : fd ≠ 0 := by
          rintro rfl
          exact zero closed
        simp only [positive, if_false, Option.some.injEq] at stepped
        subst stepped
        refine inv.gain s.made fresh (by simp [here]) full (by rw [here]; rfl)
          (by simp [Desc.unrelayed]) ?_
        have slave : method = .slave := ready
        rw [Ready, if_pos slave]
        exact Function.update_self ..
      · rename_i sockfd1 here
        rw [here] at ready
        have full : ∀ fd ∈ s.pc.inUse, s.fds fd ≠ none := by
          rw [here]
          by_cases slave : method = .slave
          · rw [Ready, if_pos slave] at ready
            simp [Pc.inUse, ready]
          · rw [Ready, if_neg slave] at ready
            obtain ⟨n, -, first⟩ := ready
            simp [Pc.inUse, first]
        obtain ⟨unused, closed⟩ := inv.fresh fresh (by simp [here]) full
        have positive : fd ≠ 0 := by
          rintro rfl
          exact zero closed
        have differ : sockfd1 ≠ fd := by
          rintro rfl
          exact unused (by simp [here, Pc.inUse])
        simp only [positive, if_false, Option.some.injEq] at stepped
        subst stepped
        by_cases slave : method = .slave
        · rw [Ready, if_pos slave] at ready
          rw [if_pos slave]
          refine inv.gain s.made fresh (by simp [here]) full (by rw [here]; rfl)
            (by simp [Desc.unrelayed]) ⟨slave, ?_, Function.update_self ..⟩
          rw [Function.update_of_ne differ, ready]
        · rw [Ready, if_neg slave] at ready
          obtain ⟨n, count, first⟩ := ready
          rw [if_neg slave]
          refine inv.gain s.made fresh (by simp [here]) full (by rw [here]; rfl)
            (by simp [Desc.unrelayed]) ⟨n, count, ?_, Function.update_self ..⟩
          rw [Function.update_of_ne differ, first]
      · cases stepped
  · cases stepped

/-- A call of `client_connect`. -/
theorem Inv.step_connect {ok : Bool} (inv : Inv method before s)
    (stepped : Lcx.step method s (.connect ok) = some s') : Inv method before s' := by
  have ready := inv.ready
  simp only [Lcx.step] at stepped
  split at stepped
  · rename_i sockfd1 sockfd2 here
    rw [here] at ready
    obtain ⟨slave, first, second⟩ := ready
    have uses : s.pc.inUse = [sockfd1, sockfd2] := by rw [here]; rfl
    have differ : sockfd2 ≠ sockfd1 := by
      have distinct := inv.distinct
      rw [uses] at distinct
      simpa [eq_comm] using distinct
    rw [Option.some.injEq] at stepped
    subst stepped
    cases ok with
    | true =>
      refine inv.connect [] [sockfd2] (by simp [here]) uses first ?_
        (by rw [uses]; rfl) ⟨s.made, rfl, Function.update_self .., ?_⟩
      · simp [held, second, Desc.unrelayed]
      · rw [Function.update_of_ne differ, second]
    | false => exact inv.goTo (by rw [uses]; exact .refl _) (by simp [here]) fun _ => slave
  · rename_i sockfd1 sockfd2 here
    rw [here] at ready
    obtain ⟨n, count, first, second⟩ := ready
    have uses : s.pc.inUse = [sockfd1, sockfd2] := by rw [here]; rfl
    have differ : sockfd1 ≠ sockfd2 := by
      have distinct := inv.distinct
      rw [uses] at distinct
      simpa using distinct
    rw [Option.some.injEq] at stepped
    subst stepped
    cases ok with
    | true =>
      refine inv.connect [sockfd1] [] (by simp [here]) uses second rfl
        (by rw [uses]; rfl) ⟨n, by omega, ?_, ?_⟩
      · rw [Function.update_of_ne differ, first]
      · rw [Function.update_self, count]
    | false =>
      by_cases slave : method = .slave
      · rw [if_neg Bool.false_ne_true, if_pos slave]
        exact inv.goTo (by rw [uses]; exact .refl _) (by simp [here]) fun _ => slave
      · rw [if_neg Bool.false_ne_true, if_neg slave]
        exact inv.goTo (by rw [uses]; exact .swap _ _ _) (by simp [here]) nofun
  · cases stepped

/-- A call of `fork`. -/
theorem Inv.step_fork {ok : Bool} (inv : Inv method before s)
    (stepped : Lcx.step method s (.fork ok) = some s') : Inv method before s' := by
  simp only [Lcx.step] at stepped
  split at stepped
  · rename_i sockfd1 sockfd2 here
    rw [Option.some.injEq] at stepped
    subst stepped
    cases ok with
    | true => exact inv.relay here
    | false => exact inv.goTo (by rw [here]; exact .refl _) (by simp [here]) nofun
  · cases stepped

/-- A call of `close`, or the next turn. -/
theorem Inv.step_close (inv : Inv method before s)
    (stepped : Lcx.step method s .close = some s') : Inv method before s' := by
  simp only [Lcx.step] at stepped
  split at stepped
  · rename_i leaves here
    rw [Option.some.injEq] at stepped
    subst stepped
    cases leaves with
    | true =>
      have ready := inv.ready
      rw [here] at ready
      exact inv.ended (by simp [here, held, Pc.inUse]) (ready rfl)
    | false =>
      refine inv.goTo ?_ (by simp [here]) ready_first
      rw [here, if_neg Bool.false_ne_true, first_inUse]
      exact .refl _
  · rename_i fd fds leaves here
    rw [Option.some.injEq] at stepped
    subst stepped
    exact inv.closeFd here
  · cases stepped

/-- Every call keeps it. -/
theorem Inv.step (zero : before 0 ≠ none) (inv : Inv method before s)
    (stepped : Lcx.step method s event = some s') : Inv method before s' := by
  cases event with
  | accept outcome => exact inv.step_accept stepped
  | socket outcome => exact inv.step_socket zero stepped
  | connect ok => exact inv.step_connect stepped
  | fork ok => exact inv.step_fork stepped
  | close => exact inv.step_close stepped

/-- What the loops guarantee in every state. -/
structure Tidy (method : Method) (before : Nat → Option Desc) (s : Parent) : Prop where
  /-- Every turn starts with the descriptors from before the loop. -/
  turn : s.pc = method.first → s.fds = before
  /-- `conn2conn` alone leaves its loop. -/
  leaves : s.pc = .ended → method = .slave
  /-- The connections of a child came about one after the other. -/
  pairs : ∀ pair ∈ s.children, pair.2 = pair.1 + 1
  /-- Each connection has one child, or was dropped, or is in a variable of the parent. -/
  accounted : (relayed s.children ++ s.dropped ++ held s.fds s.pc.inUse).Perm (List.range s.made)

/-- Whatever each call does, the loops of the relay leave no descriptor open from turn to turn, and
no connection gets to two children or to a child with a connection of another turn, while the
descriptor `0` was open before. -/
theorem loops_tidy {events : List Event} (zero : before 0 ≠ none)
    (ran : Machine.run (Lcx.step method) (start method before) events = some s) :
    Tidy method before s := by
  have inv : Inv method before s :=
    Machine.run_keeps (fun _ _ _ inv stepped => inv.step zero stepped) (start_inv method before) ran
  refine ⟨fun top => ?_, fun left_ => ?_, inv.pairs, inv.accounted⟩
  · funext fd
    refine inv.outside fd ?_ ?_
    · rw [top, first_inUse]
      exact List.not_mem_nil
    · rw [top]
      cases method <;> exact Pc.noConfusion
  · have ready := inv.ready
    rwa [left_] at ready

/-- Two turns of `conn2conn`. In the second one the second host refuses. -/
def twoTurns : List Event :=
  [.socket (some 3), .socket (some 4), .connect true, .connect true, .fork true, .close, .close,
    .close, .socket (some 3), .socket (some 4), .connect true, .connect false, .close, .close,
    .close]

/-- The descriptors of a process that a shell starts. -/
def standard (fd : Nat) : Option Desc := if fd < 3 then some .other else none

/-- The first pair has a child, the third connection is dropped. -/
theorem loops_tidy_slave : ∃ s, Machine.run (Lcx.step .slave) (start .slave standard) twoTurns =
    some s ∧ s.children = [(0, 1)] ∧ s.dropped = [2] ∧ Tidy .slave standard s := by
  have ends : (Machine.run (Lcx.step .slave) (start .slave standard) twoTurns).map
      (fun s => (s.children, s.dropped)) = some ([(0, 1)], [2]) := by decide +kernel
  obtain ⟨s, ran, parts⟩ := Option.map_eq_some_iff.mp ends
  rw [Prod.mk.injEq] at parts
  exact ⟨s, ran, parts.1, parts.2, loops_tidy (by decide) ran⟩

end Steps

end CodeLearning.Lcx
