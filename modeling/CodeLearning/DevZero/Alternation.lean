import Mathlib.Data.List.Basic

/-!
# Parent and child in turn on one counter

`dev_zero.c` lets a parent and a child increment a counter in shared memory in turn. Each tells the
other over a pipe when its increment is done. The increment reads and writes the counter in two
steps, and the steps of the two processes interleave in any order. A byte is in flight on at most
one pipe, and the process that it is for is the only one that may touch the counter next.
-/

namespace CodeLearning.DevZero

/-- Where a process is in its loop. -/
inductive Pc where
  /-- At the test of the loop. -/
  | test
  /-- In `update`, before it reads the counter. -/
  | read
  /-- In `update`, before it writes the counter. -/
  | write
  /-- At the comparison with the expected value. -/
  | check
  /-- Before it writes its byte. -/
  | tell
  /-- Before it reads the byte of the other. -/
  | wait
  /-- After `exit(0)`. -/
  | exited
  /-- After the `err_quit` for a value that was not expected. -/
  | unexpected
  /-- After the `err_quit` for incorrect data. -/
  | incorrect
deriving DecidableEq

/-- A process with its variables. -/
structure Proc where
  /-- Where it is. -/
  pc : Pc
  /-- The variable of its loop. -/
  i : Nat
  /-- What `update` read, and returns. -/
  counter : Nat
deriving DecidableEq

/-- Both processes, the shared counter and the bytes in the pipes. -/
structure State where
  /-- The parent. -/
  parent : Proc
  /-- The child. -/
  child : Proc
  /-- The counter in shared memory. -/
  area : Nat
  /-- The bytes of the parent for the child. -/
  pfd1 : List Char
  /-- The bytes of the child for the parent. -/
  pfd2 : List Char
deriving DecidableEq

/-- The two processes. -/
inductive Role where
  /-- The parent. -/
  | parent
  /-- The child. -/
  | child

/-- After `fork`; the counters are not set yet. -/
def start (stack : Nat) : State :=
  { parent := ⟨.test, 0, stack⟩, child := ⟨.test, 1, stack⟩, area := 0, pfd1 := [], pfd2 := [] }

/-- The steps of `update` and of the comparison of its value, which both loops take: the process
and the shared counter. -/
def updateStep (p : Proc) (area : Nat) : Option (Proc × Nat) :=
  match p.pc with
  | .read => some ({ p with pc := .write, counter := area }, area)
  | .write => some ({ p with pc := .check }, p.counter + 1)
  | .check => some ({ p with pc := if p.counter ≠ p.i then .unexpected else .tell }, area)
  | _ => none

/-- A step of the parent; `none` when it waits for a byte or has ended. -/
def parentStep (nloops : Nat) (s : State) : Option State :=
  match s.parent.pc with
  | .test =>
    some { s with parent := { s.parent with pc := if s.parent.i < nloops then .read else .exited } }
  | .tell => some { s with parent := { s.parent with pc := .wait }, pfd1 := s.pfd1 ++ ['p'] }
  | .wait =>
    match s.pfd2 with
    | [] => none
    | c :: rest =>
      if c ≠ 'c' then some { s with parent := { s.parent with pc := .incorrect }, pfd2 := rest }
      else some { s with
        parent := { s.parent with pc := .test, i := s.parent.i + 2 }, pfd2 := rest }
  | _ => (updateStep s.parent s.area).map fun (p, area) => { s with parent := p, area := area }

/-- A step of the child; `none` when it waits for a byte or has ended. -/
def childStep (nloops : Nat) (s : State) : Option State :=
  match s.child.pc with
  | .test =>
    some { s with
      child := { s.child with pc := if s.child.i < nloops + 1 then .wait else .exited } }
  | .wait =>
    match s.pfd1 with
    | [] => none
    | c :: rest =>
      some { s with
        child := { s.child with pc := if c ≠ 'p' then .incorrect else .read }, pfd1 := rest }
  | .tell =>
    some { s with
      child := { s.child with pc := .test, i := s.child.i + 2 }, pfd2 := s.pfd2 ++ ['c'] }
  | _ => (updateStep s.child s.area).map fun (p, area) => { s with child := p, area := area }

/-- A step of one of the processes. -/
def step (nloops : Nat) (s : State) : Role → Option State
  | .parent => parentStep nloops s
  | .child => childStep nloops s

/-- An interleaving of steps from the start. -/
def run (nloops stack : Nat) (steps : List Role) : Option State :=
  steps.foldlM (step nloops) (start stack)

/-! ## What holds in every state -/

/-- The parent is after a wait, or at its start, and before the next tell. -/
def State.ParentInside (s : State) : Prop :=
  s.parent.pc ∈ [Pc.test, .read, .write, .check, .tell]

/-- The child is after a wait and before the next tell. -/
def State.ChildInside (s : State) : Prop := s.child.pc ∈ [Pc.read, .write, .check, .tell]

/-- Both processes wait for a byte and there is none. -/
def State.BothBlocked (s : State) : Prop :=
  (s.parent.pc = .wait ∧ s.pfd2 = []) ∧ s.child.pc = .wait ∧ s.pfd1 = []

/-- Both processes have ended normally. -/
def State.Finished (s : State) : Prop := s.parent.pc = .exited ∧ s.child.pc = .exited

/-- The processes take turns. -/
structure Alternates (nloops : Nat) (s : State) : Prop where
  /-- The values that `update` returns are those that the loops expect. -/
  returned : (s.parent.pc = .check → s.parent.counter = s.parent.i) ∧
    (s.child.pc = .check → s.child.counter = s.child.i)
  /-- No process ends with a value that was not expected. -/
  expected : s.parent.pc ≠ .unexpected ∧ s.child.pc ≠ .unexpected
  /-- No process ends with incorrect data. -/
  bytes : s.parent.pc ≠ .incorrect ∧ s.child.pc ≠ .incorrect
  /-- The processes are not both between a wait and the next tell. -/
  apart : ¬ (s.ParentInside ∧ s.ChildInside)
  /-- The processes are not both blocked. -/
  unblocked : ¬ s.BothBlocked
  /-- One of the processes goes on until both have ended. -/
  goesOn : s.Finished ∨ ∃ role s', step nloops s role = some s'
  /-- At the end the counter is the number of loops. -/
  total : s.Finished → s.area = nloops

/-- The process is in `update` or just after it, with the counter it expects. -/
def Updating (p : Proc) (area : Nat) : Prop :=
  (p.pc = .read ∧ area = p.i) ∨ (p.pc = .write ∧ p.counter = p.i ∧ area = p.i) ∨
    (p.pc = .check ∧ p.counter = p.i ∧ area = p.i + 1) ∨ (p.pc = .tell ∧ area = p.i + 1)

/-- The child is not at its turn. -/
def Idle (nloops : Nat) (p : Proc) : Prop :=
  p.pc = .test ∨ (p.pc = .wait ∧ p.i < nloops + 1) ∨ (p.pc = .exited ∧ nloops + 1 ≤ p.i)

/-- Whose turn it is, with the variables of the loops and the bytes in flight. -/
inductive Turn (nloops : Nat) (s : State) : Prop where
  /-- The parent tests, updates or has ended, and no byte is in flight. -/
  | parent (flight : s.pfd1 = [] ∧ s.pfd2 = []) (loops : s.child.i = s.parent.i + 1)
      (idle : Idle nloops s.child)
      (turn : (s.parent.pc = .test ∧ s.area = s.parent.i) ∨
        (s.parent.i < nloops ∧ Updating s.parent s.area) ∨
        (s.parent.pc = .exited ∧ s.parent.i = nloops ∧ s.area = nloops))
  /-- The byte of the parent is in flight. -/
  | toChild (flight : s.pfd1 = ['p'] ∧ s.pfd2 = []) (loops : s.child.i = s.parent.i + 1)
      (idle : Idle nloops s.child) (waits : s.parent.pc = .wait) (area : s.area = s.parent.i + 1)
      (below : s.parent.i < nloops)
  /-- The child updates, and no byte is in flight. -/
  | child (flight : s.pfd1 = [] ∧ s.pfd2 = []) (loops : s.child.i = s.parent.i + 1)
      (turn : Updating s.child s.area) (waits : s.parent.pc = .wait) (below : s.parent.i < nloops)
  /-- The byte of the child is in flight. -/
  | toParent (flight : s.pfd1 = [] ∧ s.pfd2 = ['c']) (loops : s.child.i = s.parent.i + 3)
      (idle : Idle nloops s.child) (waits : s.parent.pc = .wait) (area : s.area = s.parent.i + 2)
      (below : s.parent.i < nloops)

/-- The invariant: the turn, and how far the loop of the parent is. -/
structure Inv (nloops : Nat) (s : State) : Prop where
  /-- Whose turn it is. -/
  turn : Turn nloops s
  /-- The parent counts in steps of two. -/
  even : s.parent.i % 2 = 0
  /-- The parent does not count past the number of loops. -/
  bound : s.parent.i ≤ nloops

section Steps

variable {nloops stack area : Nat} {s s' : State} {p : Proc} {role : Role}

/-- The invariant holds after `fork`. -/
theorem start_inv (nloops stack : Nat) : Inv nloops (start stack) :=
  ⟨.parent ⟨rfl, rfl⟩ rfl (.inl rfl) (.inl ⟨rfl, rfl⟩), rfl, Nat.zero_le nloops⟩

/-- A process in `update` takes a step of it and keeps the counter it expects, until it is done and
is about to tell the other. -/
theorem Updating.step (updating : Updating p area) :
    (p.pc = .tell ∧ area = p.i + 1) ∨
    ((p.pc = .read ∨ p.pc = .write ∨ p.pc = .check) ∧
      ∃ p' area', updateStep p area = some (p', area') ∧ Updating p' area' ∧ p'.i = p.i) := by
  rcases updating with ⟨pc, same⟩ | ⟨pc, read, same⟩ | ⟨pc, read, same⟩ | ⟨pc, same⟩
  · have stepped : updateStep p area = some ({ p with pc := .write, counter := area }, area) := by
      simp only [updateStep, pc]
    exact .inr ⟨.inl pc, _, _, stepped, .inr (.inl ⟨rfl, same, same⟩), rfl⟩
  · have stepped : updateStep p area = some ({ p with pc := .check }, p.counter + 1) := by
      simp only [updateStep, pc]
    have next := congrArg (· + 1) read
    exact .inr ⟨.inr (.inl pc), _, _, stepped, .inr (.inr (.inl ⟨rfl, read, next⟩)), rfl⟩
  · have stepped : updateStep p area = some ({ p with pc := .tell }, area) := by
      simp [updateStep, pc, read]
    exact .inr ⟨.inr (.inr pc), _, _, stepped, .inr (.inr (.inr ⟨rfl, same⟩)), rfl⟩
  · exact .inl ⟨pc, same⟩

/-- In `update` the parent steps in it, or tells the child when it is done. -/
theorem Updating.parentStep (updating : Updating s.parent s.area) (nloops : Nat) :
    (∃ p area, parentStep nloops s = some { s with parent := p, area := area } ∧
      Updating p area ∧ p.i = s.parent.i) ∨
    (s.area = s.parent.i + 1 ∧ parentStep nloops s = some { s with
      parent := { s.parent with pc := .wait }, pfd1 := s.pfd1 ++ ['p'] }) := by
  rcases updating.step with ⟨tells, done⟩ | ⟨inside, p, area, stepped, updating', same⟩
  · exact .inr ⟨done, by simp only [DevZero.parentStep, tells]⟩
  · refine .inl ⟨p, area, ?_, updating', same⟩
    rcases inside with pc | pc | pc <;> simp [DevZero.parentStep, pc, stepped]

/-- In `update` the child steps in it, or tells the parent when it is done. -/
theorem Updating.childStep (updating : Updating s.child s.area) (nloops : Nat) :
    (∃ p area, childStep nloops s = some { s with child := p, area := area } ∧
      Updating p area ∧ p.i = s.child.i) ∨
    (s.area = s.child.i + 1 ∧ childStep nloops s = some { s with
      child := { s.child with pc := .test, i := s.child.i + 2 }, pfd2 := s.pfd2 ++ ['c'] }) := by
  rcases updating.step with ⟨tells, done⟩ | ⟨inside, p, area, stepped, updating', same⟩
  · exact .inr ⟨done, by simp only [DevZero.childStep, tells]⟩
  · refine .inl ⟨p, area, ?_, updating', same⟩
    rcases inside with pc | pc | pc <;> simp [DevZero.childStep, pc, stepped]

/-- A child that is not at its turn tests its loop, or takes the byte it waits for. -/
theorem Idle.childStep (idle : Idle nloops s.child) (stepped : childStep nloops s = some s') :
    (∃ p, s' = { s with child := p } ∧ Idle nloops p ∧ p.i = s.child.i) ∨
    (∃ c rest, s.pfd1 = c :: rest ∧ s' = { s with
      child := { s.child with pc := if c ≠ 'p' then .incorrect else .read }, pfd1 := rest }) := by
  rcases idle with pc | ⟨pc, low⟩ | ⟨pc, -⟩
  · simp only [DevZero.childStep, pc, Option.some.injEq] at stepped
    refine .inl ⟨_, stepped.symm, ?_, rfl⟩
    by_cases low : s.child.i < nloops + 1
    · exact .inr (.inl ⟨if_pos low, low⟩)
    · exact .inr (.inr ⟨if_neg low, Nat.not_lt.mp low⟩)
  · cases flight : s.pfd1 with
    | nil => simp [DevZero.childStep, pc, flight] at stepped
    | cons c rest =>
      simp only [DevZero.childStep, pc, flight, Option.some.injEq] at stepped
      exact .inr ⟨c, rest, rfl, stepped.symm⟩
  · simp [DevZero.childStep, pc, updateStep] at stepped

/-- A parent that waits takes the byte in flight, or does not step. -/
theorem parentStep_waits (waits : s.parent.pc = .wait)
    (stepped : parentStep nloops s = some s') : s.pfd2 ≠ [] := by
  intro empty
  simp [parentStep, waits, empty] at stepped

/-- Steps of the parent keep the invariant. -/
theorem Inv.parentStep (inv : Inv nloops s) (evenLoops : nloops % 2 = 0)
    (stepped : parentStep nloops s = some s') : Inv nloops s' := by
  obtain ⟨turn, even, bound⟩ := inv
  cases turn with
  | parent flight loops idle turn =>
    rcases turn with ⟨pc, same⟩ | ⟨below, updating⟩ | ⟨pc, -⟩
    · simp only [DevZero.parentStep, pc, Option.some.injEq] at stepped
      subst stepped
      refine ⟨.parent flight loops idle (.inr ?_), even, bound⟩
      by_cases below : s.parent.i < nloops
      · exact .inl ⟨below, .inl ⟨if_pos below, same⟩⟩
      · have last : s.parent.i = nloops := by omega
        exact .inr ⟨if_neg below, last, same.trans last⟩
    · rcases updating.parentStep nloops with ⟨p, area, next, updating', same⟩ | ⟨done, next⟩
      · obtain rfl := Option.some.inj (next.symm.trans stepped)
        refine ⟨.parent flight ?_ idle (.inr (.inl ⟨?_, updating'⟩)), ?_, ?_⟩
        · rw [same, loops]
        · rwa [same]
        · rwa [same]
        · rwa [same]
      · obtain rfl := Option.some.inj (next.symm.trans stepped)
        refine ⟨.toChild ⟨?_, flight.2⟩ loops idle rfl done below, even, bound⟩
        rw [flight.1]
        rfl
    · simp [DevZero.parentStep, pc, updateStep] at stepped
  | toChild flight _ _ waits => exact absurd flight.2 (parentStep_waits waits stepped)
  | child flight _ _ waits => exact absurd flight.2 (parentStep_waits waits stepped)
  | toParent flight loops idle waits same below =>
    simp only [DevZero.parentStep, waits, flight.2] at stepped
    obtain rfl := Option.some.inj stepped
    refine ⟨.parent ⟨flight.1, rfl⟩ loops idle (.inl ⟨rfl, same⟩), ?_, ?_⟩
    · show (s.parent.i + 2) % 2 = 0
      omega
    · show s.parent.i + 2 ≤ nloops
      omega

/-- Steps of the child keep the invariant. -/
theorem Inv.childStep (inv : Inv nloops s) (stepped : childStep nloops s = some s') :
    Inv nloops s' := by
  obtain ⟨turn, even, bound⟩ := inv
  cases turn with
  | parent flight loops idle turn =>
    rcases idle.childStep stepped with ⟨p, rfl, idle', same⟩ | ⟨c, rest, some, -⟩
    · exact ⟨.parent flight (same.trans loops) idle' turn, even, bound⟩
    · rw [flight.1] at some
      cases some
  | toChild flight loops idle waits area below =>
    rcases idle.childStep stepped with ⟨p, rfl, idle', same⟩ | ⟨c, rest, some, rfl⟩
    · exact ⟨.toChild flight (same.trans loops) idle' waits area below, even, bound⟩
    · rw [flight.1] at some
      obtain ⟨rfl, rfl⟩ := List.cons.inj some
      exact ⟨.child ⟨rfl, flight.2⟩ loops (.inl ⟨rfl, area.trans loops.symm⟩) waits below,
        even, bound⟩
  | child flight loops turn waits below =>
    rcases turn.childStep nloops with ⟨p, area, next, updating', same⟩ | ⟨done, next⟩
    · obtain rfl := Option.some.inj (next.symm.trans stepped)
      exact ⟨.child flight (same.trans loops) updating' waits below, even, bound⟩
    · obtain rfl := Option.some.inj (next.symm.trans stepped)
      refine ⟨.toParent ⟨flight.1, ?_⟩ ?_ (.inl rfl) waits ?_ below, even, bound⟩
      · rw [flight.2]
        rfl
      · rw [loops]
      · rw [done, loops]
  | toParent flight loops idle waits area below =>
    rcases idle.childStep stepped with ⟨p, rfl, idle', same⟩ | ⟨c, rest, some, -⟩
    · exact ⟨.toParent flight (same.trans loops) idle' waits area below, even, bound⟩
    · rw [flight.1] at some
      cases some

/-- Every step keeps the invariant. -/
theorem Inv.step (inv : Inv nloops s) (evenLoops : nloops % 2 = 0)
    (stepped : step nloops s role = some s') : Inv nloops s' := by
  cases role with
  | parent => exact inv.parentStep evenLoops stepped
  | child => exact inv.childStep stepped

/-- A process in `update` or after it has not ended and does not wait. -/
theorem Updating.busy (updating : Updating p area) :
    p.pc ≠ .unexpected ∧ p.pc ≠ .incorrect ∧ p.pc ≠ .exited ∧ p.pc ≠ .wait ∧
      (p.pc = .check → p.counter = p.i) := by
  rcases updating with ⟨pc, -⟩ | ⟨pc, -⟩ | ⟨pc, same, -⟩ | ⟨pc, -⟩
  · simp [pc]
  · simp [pc]
  · simp [pc, same]
  · simp [pc]

/-- A child that is not at its turn is not between a wait and a tell. -/
theorem Idle.quiet (idle : Idle nloops s.child) :
    s.child.pc ≠ .unexpected ∧ s.child.pc ≠ .incorrect ∧ s.child.pc ≠ .check ∧
      ¬ s.ChildInside := by
  rcases idle with pc | ⟨pc, -⟩ | ⟨pc, -⟩ <;> simp [State.ChildInside, pc]

/-- In `update` the parent can step. -/
theorem Updating.exists_parentStep (updating : Updating s.parent s.area) (nloops : Nat) :
    ∃ role s', DevZero.step nloops s role = some s' := by
  rcases updating.parentStep nloops with ⟨p, area, next, -⟩ | ⟨-, next⟩
  · exact ⟨.parent, _, next⟩
  · exact ⟨.parent, _, next⟩

/-- In `update` the child can step. -/
theorem Updating.exists_childStep (updating : Updating s.child s.area) (nloops : Nat) :
    ∃ role s', DevZero.step nloops s role = some s' := by
  rcases updating.childStep nloops with ⟨p, area, next, -⟩ | ⟨-, next⟩
  · exact ⟨.child, _, next⟩
  · exact ⟨.child, _, next⟩

/-- A child that has not ended can step when a byte is there for it, or at its test. -/
theorem Idle.exists_childStep (idle : Idle nloops s.child) (active : s.child.pc ≠ .exited)
    (ready : s.child.pc = .wait → s.pfd1 ≠ []) :
    ∃ role s', DevZero.step nloops s role = some s' := by
  refine ⟨.child, ?_⟩
  rcases idle with pc | ⟨pc, -⟩ | ⟨pc, -⟩
  · simp [DevZero.step, DevZero.childStep, pc]
  · obtain ⟨c, rest, flight⟩ := List.exists_cons_of_ne_nil (ready pc)
    simp [DevZero.step, DevZero.childStep, pc, flight]
  · exact absurd pc active

/-- At the turn of the parent the processes alternate. -/
theorem alternates_parent (loops : s.child.i = s.parent.i + 1) (idle : Idle nloops s.child)
    (turn : (s.parent.pc = .test ∧ s.area = s.parent.i) ∨
      (s.parent.i < nloops ∧ Updating s.parent s.area) ∨
      (s.parent.pc = .exited ∧ s.parent.i = nloops ∧ s.area = nloops)) : Alternates nloops s := by
  obtain ⟨fine, right, unchecked, outside⟩ := idle.quiet
  have child : s.child.pc = .check → s.child.counter = s.child.i := fun pc => absurd pc unchecked
  have apart : ¬ (s.ParentInside ∧ s.ChildInside) := fun both => outside both.2
  rcases turn with ⟨pc, -⟩ | ⟨-, updating⟩ | ⟨pc, last, total⟩
  · refine ⟨⟨by simp [pc], child⟩, ⟨by simp [pc], fine⟩, ⟨by simp [pc], right⟩, apart, ?_, ?_, ?_⟩
    · simp [State.BothBlocked, pc]
    · exact .inr ⟨.parent, by simp [step, parentStep, pc]⟩
    · simp [State.Finished, pc]
  · obtain ⟨fineP, rightP, active, moving, returned⟩ := updating.busy
    exact ⟨⟨returned, child⟩, ⟨fineP, fine⟩, ⟨rightP, right⟩, apart,
      fun blocked => moving blocked.1.1, .inr (updating.exists_parentStep nloops),
      fun finished => absurd finished.1 active⟩
  · refine ⟨⟨by simp [pc], child⟩, ⟨by simp [pc], fine⟩, ⟨by simp [pc], right⟩, apart, ?_, ?_,
      fun _ => total⟩
    · simp [State.BothBlocked, pc]
    · by_cases ended : s.child.pc = .exited
      · exact .inl ⟨pc, ended⟩
      · refine .inr (idle.exists_childStep ended fun waits => ?_)
        rcases idle with pcC | ⟨-, low⟩ | ⟨pcC, -⟩
        · rw [pcC] at waits
          cases waits
        · omega
        · exact absurd pcC ended

/-- While the parent waits, the processes alternate when one of them can go on. -/
theorem alternates_waits (waits : s.parent.pc = .wait)
    (child : s.child.pc ≠ .unexpected ∧ s.child.pc ≠ .incorrect ∧
      (s.child.pc = .check → s.child.counter = s.child.i))
    (unblocked : ¬ s.BothBlocked) (goesOn : ∃ role s', step nloops s role = some s') :
    Alternates nloops s := by
  obtain ⟨fine, right, returned⟩ := child
  refine ⟨⟨by simp [waits], returned⟩, ⟨by simp [waits], fine⟩, ⟨by simp [waits], right⟩, ?_,
    unblocked, .inr goesOn, ?_⟩
  · simp [State.ParentInside, waits]
  · simp [State.Finished, waits]

/-- The invariant says that the processes take turns. -/
theorem Inv.alternates (inv : Inv nloops s) : Alternates nloops s := by
  cases inv.turn with
  | parent _ loops idle turn => exact alternates_parent loops idle turn
  | toChild flight loops idle waits _ below =>
    obtain ⟨fine, right, unchecked, -⟩ := idle.quiet
    have active : s.child.pc ≠ .exited := by
      intro ended
      rcases idle with pc | ⟨pc, -⟩ | ⟨-, high⟩
      · rw [pc] at ended
        cases ended
      · rw [pc] at ended
        cases ended
      · omega
    refine alternates_waits waits ⟨fine, right, fun pc => absurd pc unchecked⟩ ?_ ?_
    · simp [State.BothBlocked, flight]
    · exact idle.exists_childStep active fun _ => by simp [flight]
  | child flight loops turn waits below =>
    obtain ⟨fine, right, -, moving, returned⟩ := turn.busy
    exact alternates_waits waits ⟨fine, right, returned⟩ (fun blocked => moving blocked.2.1)
      (turn.exists_childStep nloops)
  | toParent flight loops idle waits _ below =>
    obtain ⟨fine, right, unchecked, -⟩ := idle.quiet
    refine alternates_waits waits ⟨fine, right, fun pc => absurd pc unchecked⟩ ?_ ?_
    · simp [State.BothBlocked, flight]
    · exact ⟨.parent, by simp [DevZero.step, DevZero.parentStep, waits, flight]⟩

end Steps

/-! ## The number of steps -/

section Runs

variable {nloops stack : Nat} {s s' : State} {role : Role} {steps : List Role}

/-- Steps that the parent has left in its round. -/
def parentWeight : Pc → Nat
  | .test => 6
  | .read => 5
  | .write => 4
  | .check => 3
  | .tell => 2
  | .wait => 1
  | _ => 0

/-- Steps that the child has left in its round. -/
def childWeight : Pc → Nat
  | .test => 6
  | .wait => 5
  | .read => 4
  | .write => 3
  | .check => 2
  | .tell => 1
  | _ => 0

/-- A bound on the steps that both processes have left: six for each round of each loop. -/
def rank (nloops : Nat) (s : State) : Nat :=
  3 * (nloops + 2 - s.parent.i) + parentWeight s.parent.pc +
    (3 * (nloops + 3 - s.child.i) + childWeight s.child.pc)

/-- Every step of `update` leaves less to do, in either loop. -/
theorem weight_updateStep {p p' : Proc} {area area' : Nat}
    (stepped : updateStep p area = some (p', area')) :
    p'.i = p.i ∧ parentWeight p'.pc < parentWeight p.pc ∧ childWeight p'.pc < childWeight p.pc := by
  unfold updateStep at stepped
  split at stepped
  case h_1 pc =>
    cases stepped
    simp [pc, parentWeight, childWeight]
  case h_2 pc =>
    cases stepped
    simp [pc, parentWeight, childWeight]
  case h_3 pc =>
    cases stepped
    by_cases right : p.counter = p.i <;> simp [pc, right, parentWeight, childWeight]
  case h_4 => cases stepped

/-- Every step of the parent leaves less to do. -/
theorem rank_parentStep (bound : s.parent.i ≤ nloops) (stepped : parentStep nloops s = some s') :
    rank nloops s' < rank nloops s := by
  unfold parentStep at stepped
  split at stepped
  case h_1 pc =>
    obtain rfl := Option.some.inj stepped
    by_cases below : s.parent.i < nloops <;> simp [rank, pc, below, parentWeight]
  case h_2 pc =>
    obtain rfl := Option.some.inj stepped
    simp [rank, pc, parentWeight]
  case h_3 pc =>
    cases flight : s.pfd2 with
    | nil => simp [flight] at stepped
    | cons c rest =>
      by_cases right : c = 'c'
      · simp only [flight, right, ne_eq, not_true_eq_false, if_false, Option.some.injEq] at stepped
        subst stepped
        simp only [rank, pc, parentWeight]
        omega
      · simp only [flight, right, ne_eq, not_false_eq_true, if_true, Option.some.injEq] at stepped
        subst stepped
        simp [rank, pc, parentWeight]
  case h_4 =>
    obtain ⟨⟨p, area⟩, updated, rfl⟩ := Option.map_eq_some_iff.mp stepped
    obtain ⟨same, less⟩ := weight_updateStep updated
    simp only [rank, same]
    omega

/-- Every step of the child leaves less to do. -/
theorem rank_childStep (bound : s.child.i ≤ nloops + 1)
    (stepped : childStep nloops s = some s') : rank nloops s' < rank nloops s := by
  unfold childStep at stepped
  split at stepped
  case h_1 pc =>
    obtain rfl := Option.some.inj stepped
    by_cases below : s.child.i < nloops + 1 <;> simp [rank, pc, below, childWeight]
  case h_2 pc =>
    cases flight : s.pfd1 with
    | nil => simp [flight] at stepped
    | cons c rest =>
      simp only [flight, Option.some.injEq] at stepped
      subst stepped
      by_cases right : c = 'p' <;> simp [rank, pc, right, childWeight]
  case h_3 pc =>
    obtain rfl := Option.some.inj stepped
    simp only [rank, pc, childWeight]
    omega
  case h_4 =>
    obtain ⟨⟨p, area⟩, updated, rfl⟩ := Option.map_eq_some_iff.mp stepped
    obtain ⟨same, less⟩ := weight_updateStep updated
    simp only [rank, same]
    omega

/-- The child does not count past its loop. -/
theorem Inv.child_bound (inv : Inv nloops s) (evenLoops : nloops % 2 = 0) :
    s.child.i ≤ nloops + 1 := by
  have even := inv.even
  have bound := inv.bound
  cases inv.turn with
  | parent _ loops => omega
  | toChild _ loops => omega
  | child _ loops => omega
  | toParent _ loops _ _ _ below => omega

/-- A run keeps the invariant, and each of its steps leaves less to do. -/
theorem Inv.run (inv : Inv nloops s) (evenLoops : nloops % 2 = 0)
    (ran : steps.foldlM (DevZero.step nloops) s = some s') :
    Inv nloops s' ∧ steps.length + rank nloops s' ≤ rank nloops s := by
  induction steps generalizing s with
  | nil =>
    obtain rfl := Option.some.inj ran
    exact ⟨inv, by simp⟩
  | cons role steps rest =>
    rw [List.foldlM_cons, Option.bind_eq_bind, Option.bind_eq_some_iff] at ran
    obtain ⟨s1, stepped, ran1⟩ := ran
    obtain ⟨inv', fewer⟩ := rest (inv.step evenLoops stepped) ran1
    have less : rank nloops s1 < rank nloops s := by
      cases role with
      | parent => exact rank_parentStep inv.bound stepped
      | child => exact rank_childStep (inv.child_bound evenLoops) stepped
    refine ⟨inv', ?_⟩
    rw [List.length_cons]
    omega

/-- In every state of every interleaving the processes take turns: each `update` returns what its
loop expects, no byte is wrong, the processes are not both at the counter and not both blocked, and
one of them goes on until both have ended with the counter at the number of loops. There is no
endless interleaving. -/
theorem processes_alternate (nloops stack : Nat) (even : nloops % 2 = 0) (steps : List Role)
    (s : State) (ran : run nloops stack steps = some s) :
    Alternates nloops s ∧ steps.length ≤ 6 * nloops + 24 := by
  obtain ⟨inv, fewer⟩ := (start_inv nloops stack).run even ran
  refine ⟨inv.alternates, ?_⟩
  simp only [rank, start, parentWeight, childWeight] at fewer
  omega

/-- Two loops, from the start to the end of both processes. -/
theorem processes_alternate_two :
    ∃ s, run 2 7 (List.replicate 5 .parent ++ List.replicate 6 .child ++
      [.parent, .parent, .child]) = some s ∧ s.Finished ∧ s.area = 2 := by
  have ran : run 2 7 (List.replicate 5 .parent ++ List.replicate 6 .child ++
      [.parent, .parent, .child]) =
        some ⟨⟨.exited, 2, 0⟩, ⟨.exited, 3, 1⟩, 2, [], []⟩ := by decide
  have finished : State.Finished ⟨⟨.exited, 2, 0⟩, ⟨.exited, 3, 1⟩, 2, [], []⟩ := ⟨rfl, rfl⟩
  exact ⟨_, ran, finished, (processes_alternate 2 7 rfl _ _ ran).1.total finished⟩

end Runs

end CodeLearning.DevZero
