import CodeLearning.Transwarp.Db
import Mathlib.Algebra.GroupWithZero.Nat
import Mathlib.Data.List.Count

/-!
# Nested blocks of transwarp

In every state of a thread the context is initialised exactly when a block is open, and it counts
the open transaction blocks. The driver sees no commit and no rollback inside a transaction, and
a connection is closed once, when the outermost block is left.
-/

namespace CodeLearning.Transwarp

/-- How many blocks are open. -/
def blocks : List Frame → Nat
  | [] => 0
  | .rest _ :: stack => blocks stack
  | .handler _ :: stack => blocks stack
  | .connection _ :: stack => blocks stack + 1
  | .transaction .. :: stack => blocks stack + 1

/-- How many transaction blocks are open. -/
def transactionBlocks : List Frame → Nat
  | [] => 0
  | .rest _ :: stack => transactionBlocks stack
  | .handler _ :: stack => transactionBlocks stack
  | .connection _ :: stack => transactionBlocks stack
  | .transaction .. :: stack => transactionBlocks stack + 1

/-- Only the outermost block cleans up. -/
def Outermost : List Frame → Prop
  | [] => True
  | .rest _ :: stack => Outermost stack
  | .handler _ :: stack => Outermost stack
  | .connection shouldCleanup :: stack =>
    (shouldCleanup = true ↔ blocks stack = 0) ∧ Outermost stack
  | .transaction shouldCloseConn _ :: stack =>
    (shouldCloseConn = true ↔ blocks stack = 0) ∧ Outermost stack

/-- A transaction block is a block. -/
theorem transactionBlocks_le (stack : List Frame) : transactionBlocks stack ≤ blocks stack := by
  induction stack with
  | nil => exact Nat.le_refl _
  | cons frame stack rest =>
    cases frame with
    | rest _ | handler _ => exact rest
    | connection _ => exact Nat.le_succ_of_le rest
    | transaction _ _ => exact Nat.succ_le_succ rest

/-! ## Calls of the driver -/

/-- Connections are opened once, and closed once when they are not the current one any more. -/
structure Conns (w : World) : Prop where
  /-- Each connection was opened once. -/
  connects : ∀ id, w.log.count (.connect id) = if id < w.opened then 1 else 0
  /-- Each connection but the current one was closed once. -/
  closes : ∀ id, w.log.count (.close id) =
    if id < w.opened ∧ w.connection ≠ some (some id) then 1 else 0
  /-- The current connection was opened. -/
  current : ∀ id, w.connection = some (some id) → id < w.opened

/-- A change of the state that makes only allowed calls of the driver. -/
structure Does (allowed : Event → Prop) (w w' : World) : Prop where
  /-- Connections stay in order. -/
  conns : Conns w → Conns w'
  /-- The calls. -/
  calls : ∃ new, w'.log = w.log ++ new ∧ ∀ event ∈ new, allowed event

section Does

variable {allowed allowed' : Event → Prop} {w w' w'' : World} {faults : Faults}

/-- Nothing is done. -/
theorem Does.refl : Does allowed w w := ⟨id, [], by simp, by simp⟩

/-- One change after the other. -/
theorem Does.trans (first : Does allowed w w') (second : Does allowed w' w'') :
    Does allowed w w'' := by
  refine ⟨second.conns ∘ first.conns, ?_⟩
  obtain ⟨one, logged, fine⟩ := first.calls
  obtain ⟨two, logged', fine'⟩ := second.calls
  refine ⟨one ++ two, by rw [logged', logged, List.append_assoc], ?_⟩
  intro event mem
  exact (List.mem_append.mp mem).elim (fine event) (fine' event)

/-- More calls are allowed. -/
theorem Does.mono (does : Does allowed w w') (more : ∀ event, allowed event → allowed' event) :
    Does allowed' w w' := by
  refine ⟨does.conns, ?_⟩
  obtain ⟨new, logged, fine⟩ := does.calls
  exact ⟨new, logged, fun event mem => more event (fine event mem)⟩

/-- A change that calls nothing and keeps the connections. -/
theorem Does.silent (log : w'.log = w.log) (opened : w'.opened = w.opened)
    (connection : ∀ id, w'.connection = some (some id) ↔ w.connection = some (some id)) :
    Does allowed w w' := by
  refine ⟨fun conns => ⟨?_, ?_, ?_⟩, [], by simp [log], by simp⟩
  · intro id
    rw [log, opened]
    exact conns.connects id
  · intro id
    rw [log, opened, conns.closes id]
    simp only [ne_eq, connection]
  · intro id here
    rw [opened]
    exact conns.current id ((connection id).mp here)

/-- A call that neither opens nor closes a connection. -/
theorem Does.call {event : Event} (fine : allowed event)
    (other : ∀ id, event ≠ .connect id ∧ event ≠ .close id) (log : w'.log = w.log ++ [event])
    (opened : w'.opened = w.opened) (connection : w'.connection = w.connection) :
    Does allowed w w' := by
  refine ⟨fun conns => ⟨?_, ?_, ?_⟩, [event], log, by simpa using fine⟩
  · intro id
    rw [log, opened, List.count_append, List.count_singleton, conns.connects id]
    simp [(other id).1]
  · intro id
    rw [log, opened, connection, List.count_append, List.count_singleton, conns.closes id]
    simp [(other id).2]
  · intro id here
    rw [opened]
    rw [connection] at here
    exact conns.current id here

/-- `cursor` opens a connection at most, in an initialised context. -/
theorem cursor_does (w : World) (faults : Faults) :
    Does (fun event => ∃ id, event = .connect id) w (cursor w faults).1 := by
  unfold cursor
  cases here : w.connection with
  | none => exact Does.refl
  | some lazy =>
    cases lazy with
    | some id => exact Does.refl
    | none =>
      dsimp only
      split
      · exact Does.refl
      · refine ⟨fun conns => ⟨?_, ?_, ?_⟩, [.connect w.opened], rfl, by simp⟩
        · intro id
          simp only [List.count_append, List.count_singleton, conns.connects id, beq_iff_eq,
            Event.connect.injEq]
          split_ifs <;> omega
        · intro id
          have closes := conns.closes id
          rw [here] at closes
          simp only [List.count_append, closes]
          simp
          split_ifs <;> omega
        · intro id same
          simp only [Option.some.injEq] at same ⊢
          omega

/-- `cursor` keeps the number of transactions. -/
@[simp]
theorem cursor_transactions (w : World) (faults : Faults) :
    (cursor w faults).1.transactions = w.transactions := by
  unfold cursor
  split
  · rfl
  · rfl
  · split <;> rfl

/-- `cursor` keeps the context initialised or not. -/
@[simp]
theorem cursor_connection (w : World) (faults : Faults) :
    (cursor w faults).1.connection = none ↔ w.connection = none := by
  unfold cursor
  split
  · rfl
  · rfl
  · split <;> simp [*]

/-- `commit` calls the driver's. -/
theorem commit_does (w : World) (faults : Faults) :
    Does (fun event => ∃ id, event = .commit id) w (commit w faults).1 := by
  unfold commit
  split
  · split
    · exact .call ⟨_, rfl⟩ (by simp) rfl rfl rfl
    · exact .call ⟨_, rfl⟩ (by simp) rfl rfl rfl
  · exact Does.refl

/-- `commit` keeps the connection. -/
@[simp]
theorem commit_connection (w : World) (faults : Faults) :
    (commit w faults).1.connection = w.connection := by
  unfold commit
  split
  · split <;> rfl
  · rfl

/-- `commit` keeps the number of transactions. -/
@[simp]
theorem commit_transactions (w : World) (faults : Faults) :
    (commit w faults).1.transactions = w.transactions := by
  unfold commit
  split
  · split <;> rfl
  · rfl

/-- `rollback` calls the driver's. -/
theorem rollback_does (w : World) (faults : Faults) :
    Does (fun event => ∃ id, event = .rollback id) w (rollback w faults).1 := by
  unfold rollback
  split
  · split
    · exact .call ⟨_, rfl⟩ (by simp) rfl rfl rfl
    · exact .call ⟨_, rfl⟩ (by simp) rfl rfl rfl
  · exact Does.refl

/-- `rollback` keeps the connection. -/
@[simp]
theorem rollback_connection (w : World) (faults : Faults) :
    (rollback w faults).1.connection = w.connection := by
  unfold rollback
  split
  · split <;> rfl
  · rfl

/-- `rollback` keeps the number of transactions. -/
@[simp]
theorem rollback_transactions (w : World) (faults : Faults) :
    (rollback w faults).1.transactions = w.transactions := by
  unfold rollback
  split
  · split <;> rfl
  · rfl

/-- `cleanup` closes the current connection. -/
theorem cleanup_does (w : World) :
    Does (fun event => ∃ id, event = .close id ∧ w.connection = some (some id)) w
      (cleanup w).1 := by
  unfold cleanup
  cases here : w.connection with
  | none => exact Does.refl
  | some lazy =>
    cases lazy with
    | none => exact Does.silent rfl rfl (by simp [here])
    | some id =>
      refine ⟨fun conns => ⟨?_, ?_, ?_⟩, [.close id], rfl, by simp⟩
      · intro other
        simp only [List.count_append, conns.connects other]
        simp
      · intro other
        have current := conns.current id here
        have closes := conns.closes other
        rw [here] at closes
        simp only [List.count_append, List.count_singleton, closes, beq_iff_eq,
          Event.close.injEq]
        by_cases same : id = other
        · subst same
          simp [current]
        · simp [same]
      · simp

/-- `cleanup` of an initialised context raises nothing and leaves it uninitialised. -/
theorem cleanup_spec (initialised : w.connection ≠ none) :
    (cleanup w).2 = false ∧ (cleanup w).1.connection = none ∧
      (cleanup w).1.transactions = w.transactions ∧
      ∀ id, w.connection = some (some id) → (cleanup w).1.log = w.log ++ [.close id] := by
  unfold cleanup
  cases here : w.connection with
  | none => exact absurd here initialised
  | some lazy =>
    cases lazy with
    | none => simp
    | some id =>
      refine ⟨rfl, rfl, rfl, ?_⟩
      rintro other same
      obtain rfl := Option.some.inj (Option.some.inj same)
      rfl

/-! ## Blocks and statements -/

/-- A call of the driver inside a block: a connection is opened, or an update is committed outside
of transactions. -/
def Inside (transactions : Int) : Event → Prop
  | .connect _ => True
  | .commit _ => transactions = 0
  | _ => False

/-- An update commits outside of transactions only. -/
theorem executeUpdate_does (w : World) (faults : Faults) :
    Does (Inside w.transactions) w (executeUpdate w faults).1 := by
  unfold executeUpdate
  split
  · rename_i id here
    have executes : Does (Inside w.transactions) w (execute w id) :=
      Does.silent rfl rfl fun _ => Iff.rfl
    split
    · exact Does.refl
    · split
      · rename_i outside
        refine executes.trans ((commit_does _ faults).mono ?_)
        rintro event ⟨id, rfl⟩
        exact outside
      · exact executes
  · exact Does.refl

/-- An update keeps the context. -/
theorem executeUpdate_keeps (w : World) (faults : Faults) :
    (executeUpdate w faults).1.connection = w.connection ∧
      (executeUpdate w faults).1.transactions = w.transactions := by
  unfold executeUpdate
  split
  · split
    · exact ⟨rfl, rfl⟩
    · split
      · rw [commit_connection, commit_transactions]
        exact ⟨rfl, rfl⟩
      · exact ⟨rfl, rfl⟩
  · exact ⟨rfl, rfl⟩

/-- A statement opens a connection at most and commits outside of transactions. -/
theorem statement_does (w : World) (s : Statement) (faults : Faults) :
    Does (Inside w.transactions) w (statement w s faults).1 := by
  have opens : Does (Inside w.transactions) w (cursor w faults).1 :=
    (cursor_does w faults).mono (by rintro event ⟨id, rfl⟩; trivial)
  unfold statement
  dsimp only
  split
  · exact opens
  · cases s with
    | select => exact opens
    | update =>
      have updates := executeUpdate_does (cursor w faults).1 faults
      rw [cursor_transactions] at updates
      exact opens.trans updates

/-- A statement keeps the context initialised and the number of transactions. -/
theorem statement_keeps (w : World) (s : Statement) (faults : Faults) :
    ((statement w s faults).1.connection = none ↔ w.connection = none) ∧
      (statement w s faults).1.transactions = w.transactions := by
  unfold statement
  dsimp only
  split
  · simp
  · cases s with
    | select => simp
    | update => simp [executeUpdate_keeps]

/-- `__exit__` of a transaction, before its `finally`, ends the outermost transaction only. -/
theorem endTransaction_does (w : World) (raised : Bool) (faults : Faults) :
    Does (fun event => w.transactions = 0 ∧
      ∃ id, event = .commit id ∨ event = .rollback id) w (endTransaction w raised faults).1 := by
  unfold endTransaction
  split
  · rename_i outermost
    have ends : ∀ v : World, Does (fun event => w.transactions = 0 ∧
        ∃ id, event = .commit id ∨ event = .rollback id) v (rollback v faults).1 := by
      intro v
      refine (rollback_does v faults).mono ?_
      rintro event ⟨id, rfl⟩
      exact ⟨outermost, id, Or.inr rfl⟩
    have commits : Does (fun event => w.transactions = 0 ∧
        ∃ id, event = .commit id ∨ event = .rollback id) w (commit w faults).1 := by
      refine (commit_does w faults).mono ?_
      rintro event ⟨id, rfl⟩
      exact ⟨outermost, id, Or.inl rfl⟩
    split
    · exact ends w
    · unfold commitTransaction
      dsimp only
      split
      · exact commits.trans (ends _)
      · exact commits
  · exact Does.refl

/-- `__exit__` of a transaction, before its `finally`, keeps the context. -/
theorem endTransaction_keeps (w : World) (raised : Bool) (faults : Faults) :
    (endTransaction w raised faults).1.connection = w.connection ∧
      (endTransaction w raised faults).1.transactions = w.transactions := by
  unfold endTransaction
  split
  · split
    · simp
    · unfold commitTransaction
      dsimp only
      split <;> simp
  · exact ⟨rfl, rfl⟩

/-- Entering a block initialises the context when it is not. -/
theorem ensureInit_spec (w : World) :
    (ensureInit w).1.connection ≠ none ∧
      ((ensureInit w).2 = true ↔ w.connection = none) ∧
      (w.connection = none → (ensureInit w).1.transactions = 0) ∧
      (w.connection ≠ none → (ensureInit w).1.transactions = w.transactions) ∧
      ∀ allowed, Does allowed w (ensureInit w).1 := by
  unfold ensureInit
  split
  · rename_i uninitialised
    refine ⟨by simp [init], by simp [uninitialised], fun _ => rfl, by simp [uninitialised], ?_⟩
    exact fun _ => Does.silent rfl rfl (by simp [init, uninitialised])
  · rename_i initialised
    exact ⟨initialised, by simp [initialised], by simp [initialised], fun _ => rfl,
      fun _ => Does.refl⟩

/-- A call of the driver at the end of a block: the outermost transaction is ended, or the
connection of the outermost block is closed. -/
def Leaving (transactions : Int) (outermost : Bool) : Event → Prop
  | .connect _ => False
  | .commit _ => transactions = 1
  | .rollback _ => transactions = 1
  | .close _ => outermost = true

/-- Leaving a connection block closes the connection of the outermost block. -/
theorem exitConnection_does (w : World) (outermost : Bool) :
    Does (Leaving 0 outermost) w (exitConnection w outermost).1 := by
  unfold exitConnection
  split
  · rename_i here
    refine (cleanup_does w).mono ?_
    rintro event ⟨id, rfl, -⟩
    exact here
  · exact Does.refl

/-- Leaving a transaction block ends the outermost transaction and closes the connection of the
outermost block. -/
theorem exitTransaction_does (w : World) (outermost raised : Bool) (faults : Faults) :
    Does (Leaving w.transactions outermost) w
      (exitTransaction w outermost raised faults).1 := by
  have fewer : Does (Leaving w.transactions outermost) w
      { w with transactions := w.transactions - 1 } := Does.silent rfl rfl fun _ => Iff.rfl
  have ends : Does (Leaving w.transactions outermost) { w with transactions := w.transactions - 1 }
      (endTransaction { w with transactions := w.transactions - 1 } raised faults).1 := by
    refine (endTransaction_does _ raised faults).mono ?_
    rintro event ⟨last, id, rfl | rfl⟩
    · show w.transactions = 1
      have : w.transactions - 1 = 0 := last
      omega
    · show w.transactions = 1
      have : w.transactions - 1 = 0 := last
      omega
  unfold exitTransaction
  dsimp only
  split
  · rename_i here
    refine (fewer.trans ends).trans ((cleanup_does _).mono ?_)
    rintro event ⟨id, rfl, -⟩
    exact here
  · exact fewer.trans ends

/-- The context after a block is left. -/
structure Left (w w' : World) (outermost : Bool) (transactions : Int) : Prop where
  /-- The transactions that are open then. -/
  transactions : w'.transactions = transactions
  /-- The outermost block cleans up. -/
  cleaned : outermost = true → w'.connection = none
  /-- Its connection is closed. -/
  closed : outermost = true → ∀ id, w.connection = some (some id) →
    .close id ∈ w'.log.drop w.log.length
  /-- The other blocks keep the connection. -/
  kept : outermost = false → w'.connection = w.connection

/-- Leaving a connection block. -/
theorem exitConnection_left (initialised : w.connection ≠ none) (outermost : Bool) :
    (exitConnection w outermost).2 = false ∧
      Left w (exitConnection w outermost).1 outermost w.transactions := by
  unfold exitConnection
  cases outermost with
  | false => exact ⟨rfl, rfl, by simp, by simp, fun _ => rfl⟩
  | true =>
    obtain ⟨fine, gone, same, closes⟩ := cleanup_spec initialised
    refine ⟨fine, same, fun _ => gone, fun _ id here => ?_, by simp⟩
    simp [closes id here]

/-- Leaving a transaction block. -/
theorem exitTransaction_left (initialised : w.connection ≠ none) (outermost raised : Bool)
    (faults : Faults) :
    Left w (exitTransaction w outermost raised faults).1 outermost (w.transactions - 1) := by
  obtain ⟨connection, transactions⟩ :=
    endTransaction_keeps { w with transactions := w.transactions - 1 } raised faults
  obtain ⟨new, logged, -⟩ :=
    (endTransaction_does { w with transactions := w.transactions - 1 } raised faults).calls
  unfold exitTransaction
  dsimp only
  cases outermost with
  | false => exact ⟨transactions, by simp, by simp, fun _ => connection⟩
  | true =>
    obtain ⟨fine, gone, same, closes⟩ := cleanup_spec (connection ▸ initialised)
    refine ⟨same.trans transactions, fun _ => gone, fun _ id here => ?_, by simp⟩
    have log := closes id (connection.trans here)
    simp [log, logged]

end Does

/-! ## Runs -/

section Runs

variable {c : Config} {w : World} {stack : List Frame}

/-- What holds in every state of a thread. -/
structure Inv (c : Config) : Prop where
  /-- Only the outermost block cleans up. -/
  outermost : Outermost c.stack
  /-- The context is initialised inside blocks. -/
  initialised : c.world.connection = none ↔ blocks c.stack = 0
  /-- It counts the transaction blocks. -/
  counted : c.world.transactions = transactionBlocks c.stack
  /-- Statements are executed inside blocks. -/
  inside : ∀ s, c.code = .body s → blocks c.stack ≠ 0
  /-- Connections are in order. -/
  conns : Conns c.world

/-- The calls of the driver that a step makes. -/
def newCalls (c : Config) (faults : Faults) : List Event :=
  (step c faults).world.log.drop c.world.log.length

/-- The thread leaves the outermost block. -/
def LeavesOutermost (c : Config) : Prop :=
  (c.code = .done ∨ c.code = .raising) ∧
    ∃ frame stack, c.stack = frame :: stack ∧ blocks c.stack = 1 ∧ blocks stack = 0

/-- The thread leaves the outermost transaction block. -/
def LeavesOutermostTransaction (c : Config) : Prop :=
  (c.code = .done ∨ c.code = .raising) ∧
    ∃ shouldCloseConn since stack, c.stack = .transaction shouldCloseConn since :: stack ∧
      transactionBlocks stack = 0

/-- What is promised in a state. -/
structure Nested (c : Config) : Prop where
  /-- Inside every block the context is initialised. -/
  initialised : blocks c.stack ≠ 0 → c.world.connection ≠ none
  /-- It counts the open transaction blocks. -/
  counted : c.world.transactions = transactionBlocks c.stack
  /-- Outside of the blocks it is not initialised. -/
  uninitialised : blocks c.stack = 0 → c.world.connection = none ∧ c.world.transactions = 0
  /-- A connection is opened once. -/
  opened : ∀ id, c.world.log.count (.connect id) ≤ 1
  /-- A connection that was opened is closed once, unless it is the current one. -/
  closed : ∀ id, c.world.log.count (.close id) =
    if .connect id ∈ c.world.log ∧ c.world.connection ≠ some (some id) then 1 else 0

/-- What is promised of a step. -/
structure Bounded (c : Config) (faults : Faults) : Prop where
  /-- The calls of the driver so far stay. -/
  grows : (step c faults).world.log = c.world.log ++ newCalls c faults
  /-- The driver sees a commit or a rollback outside of transactions, or when the outermost
  transaction block is left. -/
  ends : ∀ id, .commit id ∈ newCalls c faults ∨ .rollback id ∈ newCalls c faults →
    transactionBlocks c.stack = 0 ∨ LeavesOutermostTransaction c
  /-- A connection is closed when the outermost block is left. -/
  closes : ∀ id, .close id ∈ newCalls c faults → LeavesOutermost c
  /-- When the outermost block is left, its connection is closed and the context is not
  initialised any more. -/
  cleans : LeavesOutermost c →
    (step c faults).world.connection = none ∧ (step c faults).world.transactions = 0 ∧
      ∀ id, c.world.connection = some (some id) → .close id ∈ newCalls c faults

/-- Entering a block counts the transaction blocks around it. -/
theorem Inv.ensureInit_counted {code : Code} (inv : Inv ⟨code, stack, w⟩) :
    (ensureInit w).1.transactions = transactionBlocks stack := by
  obtain ⟨-, -, reset, kept, -⟩ := ensureInit_spec w
  by_cases uninitialised : w.connection = none
  · have none : blocks stack = 0 := inv.initialised.mp uninitialised
    have fewer := transactionBlocks_le stack
    rw [reset uninitialised]
    omega
  · rw [kept uninitialised]
    exact inv.counted

/-- Executing the first part of a program keeps the invariant. -/
theorem start_inv {prog : Prog} (inv : Inv ⟨.exec prog, stack, w⟩) : Inv (start w stack prog) := by
  obtain ⟨entered, first, -, -, does⟩ := ensureInit_spec w
  have outermost : (ensureInit w).2 = true ↔ blocks stack = 0 := first.trans inv.initialised
  have conns := (does fun _ => True).conns inv.conns
  cases prog with
  | skip | raise | seq _ _ | tryExcept _ _ =>
    exact ⟨inv.outermost, inv.initialised, inv.counted, by simp [start], inv.conns⟩
  | connection _ =>
    exact ⟨⟨outermost, inv.outermost⟩, by simpa [start, blocks] using entered,
      inv.ensureInit_counted, by simp [start], conns⟩
  | transaction _ =>
    refine ⟨⟨outermost, inv.outermost⟩, by simpa [start, blocks, enterTransaction] using entered,
      ?_, by simp [start], ⟨conns.connects, conns.closes, conns.current⟩⟩
    simp only [start, enterTransaction, transactionBlocks, inv.ensureInit_counted]
    omega
  | sql _ =>
    exact ⟨⟨outermost, inv.outermost⟩, by simpa [start, blocks] using entered,
      inv.ensureInit_counted, by simp [start, blocks], conns⟩

/-- Executing the first part of a program calls nothing. -/
theorem start_does (allowed : Event → Prop) (w : World) (stack : List Frame) (prog : Prog) :
    Does allowed w (start w stack prog).world := by
  obtain ⟨-, -, -, -, does⟩ := ensureInit_spec w
  cases prog with
  | skip | raise | seq _ _ | tryExcept _ _ => exact Does.refl
  | connection _ | sql _ => exact does allowed
  | transaction _ => exact (does allowed).trans (Does.silent rfl rfl fun _ => Iff.rfl)

/-- A block that is left leaves the context as the blocks around it need it. -/
theorem Left.initialised {w' : World} {outermost : Bool} {transactions : Int}
    (left : Left w w' outermost transactions) (before : w.connection ≠ none)
    (first : outermost = true ↔ blocks stack = 0) : w'.connection = none ↔ blocks stack = 0 := by
  cases outermost with
  | true => exact iff_of_true (left.cleaned rfl) (first.mp rfl)
  | false =>
    rw [left.kept rfl]
    exact iff_of_false before (fun none => Bool.false_ne_true (first.mpr none))

/-- Leaving a frame keeps the invariant. -/
theorem leave_inv {code : Code} {frame : Frame} (inv : Inv ⟨code, frame :: stack, w⟩)
    (raised : Bool) (faults : Faults) : Inv (leave w raised faults stack frame) := by
  cases frame with
  | rest _ | handler _ =>
    exact ⟨inv.outermost, inv.initialised, inv.counted, by cases raised <;> simp [leave],
      inv.conns⟩
  | connection flag =>
    have before : w.connection ≠ none := fun gone => Nat.succ_ne_zero _ (inv.initialised.mp gone)
    obtain ⟨first, outer⟩ := inv.outermost
    obtain ⟨-, left⟩ := exitConnection_left before flag
    refine ⟨outer, left.initialised before first, ?_, ?_, ?_⟩
    · exact left.transactions.trans inv.counted
    · simp only [leave, ended]
      split <;> simp
    · exact (exitConnection_does w flag).conns inv.conns
  | transaction flag _ =>
    have before : w.connection ≠ none := fun gone => Nat.succ_ne_zero _ (inv.initialised.mp gone)
    obtain ⟨first, outer⟩ := inv.outermost
    have left := exitTransaction_left before flag raised faults
    refine ⟨outer, left.initialised before first, ?_, ?_, ?_⟩
    · have counted : w.transactions = (transactionBlocks stack + 1 : Nat) := inv.counted
      refine left.transactions.trans ?_
      rw [counted]
      simp [leave]
    · simp only [leave, ended]
      split <;> simp
    · exact (exitTransaction_does w flag raised faults).conns inv.conns

/-- A step keeps the invariant. -/
theorem step_inv (inv : Inv c) (faults : Faults) : Inv (step c faults) := by
  obtain ⟨code, stack, w⟩ := c
  cases code with
  | exec prog => exact start_inv inv
  | body s =>
    obtain ⟨initialised, transactions⟩ := statement_keeps w s faults
    refine ⟨inv.outermost, initialised.trans inv.initialised, transactions.trans inv.counted, ?_,
      (statement_does w s faults).conns inv.conns⟩
    simp only [step, ended]
    split <;> simp
  | done =>
    cases stack with
    | nil => exact inv
    | cons frame stack => exact leave_inv inv false faults
  | raising =>
    cases stack with
    | nil => exact inv
    | cons frame stack => exact leave_inv inv true faults

/-- Every state of a thread satisfies the invariant. -/
theorem run_inv (inv : Inv c) (faults : List Faults) : Inv (run c faults) := by
  induction faults generalizing c with
  | nil => exact inv
  | cons first rest more => exact more (step_inv inv first)

/-- A new thread satisfies the invariant. -/
theorem begin_inv (prog : Prog) : Inv (begin prog) :=
  ⟨trivial, by simp [begin, blocks], rfl, by simp [begin], by simp [begin], by simp [begin],
    by simp [begin]⟩

/-- What is promised in a state follows from the invariant. -/
theorem Inv.nested (inv : Inv c) : Nested c := by
  refine ⟨fun inside gone => inside (inv.initialised.mp gone), inv.counted, ?_, ?_, ?_⟩
  · intro outside
    have fewer := transactionBlocks_le c.stack
    refine ⟨inv.initialised.mpr outside, ?_⟩
    rw [inv.counted]
    omega
  · intro id
    rw [inv.conns.connects id]
    split <;> omega
  · intro id
    have known : .connect id ∈ c.world.log ↔ id < c.world.opened := by
      rw [← List.count_pos_iff, inv.conns.connects id]
      split <;> simp [*]
    rw [inv.conns.closes id]
    simp only [known]

/-! ## Steps -/

/-- A step that is not one of leaving a block, by the calls it makes. -/
theorem bounded_of_inside {faults : Faults} {transactions : Int}
    (does : Does (Inside transactions) c.world (step c faults).world)
    (counted : transactions = transactionBlocks c.stack) (stays : ¬ LeavesOutermost c) :
    Bounded c faults := by
  obtain ⟨new, logged, fine⟩ := does.calls
  have same : newCalls c faults = new := by simp [newCalls, logged]
  refine ⟨by rw [logged, same], ?_, ?_, fun leaves => absurd leaves stays⟩
  · rintro id (mem | mem)
    · have outside : transactions = 0 := fine (.commit id) (same ▸ mem)
      exact Or.inl (by omega)
    · have never : False := fine (.rollback id) (same ▸ mem)
      exact never.elim
  · intro id mem
    have never : False := fine (.close id) (same ▸ mem)
    exact never.elim

/-- A step that leaves a block, by the calls it makes and the context after it. -/
theorem bounded_of_leaving {faults : Faults} {outermost : Bool} {transactions after : Int}
    (does : Does (Leaving transactions outermost) c.world (step c faults).world)
    (ends : transactions = 1 → LeavesOutermostTransaction c)
    (left : Left c.world (step c faults).world outermost after)
    (leaves : LeavesOutermost c ↔ outermost = true) (nested : Inv (step c faults))
    (around : LeavesOutermost c → blocks (step c faults).stack = 0) : Bounded c faults := by
  obtain ⟨new, logged, fine⟩ := does.calls
  have same : newCalls c faults = new := by simp [newCalls, logged]
  refine ⟨by rw [logged, same], ?_, ?_, ?_⟩
  · rintro id (mem | mem)
    · exact Or.inr (ends (fine (.commit id) (same ▸ mem)))
    · exact Or.inr (ends (fine (.rollback id) (same ▸ mem)))
  · intro id mem
    exact leaves.mpr (fine (.close id) (same ▸ mem))
  · intro outer
    obtain ⟨gone, zero⟩ := nested.nested.uninitialised (around outer)
    exact ⟨gone, zero, fun id here => left.closed (leaves.mp outer) id here⟩

/-- A thread that executes something leaves no block. -/
theorem not_leavesOutermost_of_code (running : c.code ≠ .done) (fine : c.code ≠ .raising) :
    ¬ LeavesOutermost c :=
  fun leaves => leaves.1.elim running fine

/-- A frame that is no block is not the outermost one. -/
theorem not_leavesOutermost_of_blocks {frame : Frame} (top : c.stack = frame :: stack)
    (same : blocks (frame :: stack) = blocks stack) : ¬ LeavesOutermost c := by
  rintro ⟨-, frame', stack', top', one, none⟩
  obtain ⟨rfl, rfl⟩ := List.cons.inj (top.symm.trans top')
  rw [top, same] at one
  omega

/-- The outermost block is the one around which no block is open. -/
theorem leavesOutermost_iff {frame : Frame} (leaving : c.code = .done ∨ c.code = .raising)
    (top : c.stack = frame :: stack) (block : blocks (frame :: stack) = blocks stack + 1) :
    LeavesOutermost c ↔ blocks stack = 0 := by
  constructor
  · rintro ⟨-, frame', stack', top', -, none⟩
    obtain ⟨rfl, rfl⟩ := List.cons.inj (top.symm.trans top')
    exact none
  · intro none
    exact ⟨leaving, frame, stack, top, by rw [top, block, none], none⟩

/-- A step that leaves a frame does what is promised of it. -/
theorem leave_bounded {frame : Frame} {raised : Bool} {faults : Faults} (inv : Inv c)
    (leaving : c.code = .done ∨ c.code = .raising) (top : c.stack = frame :: stack)
    (steps : step c faults = leave c.world raised faults stack frame) : Bounded c faults := by
  have after : Inv (step c faults) := step_inv inv faults
  have outer := inv.outermost
  have before := inv.initialised
  rw [top] at outer before
  cases frame with
  | rest _ | handler _ =>
    have none : Does (Inside c.world.transactions) c.world (step c faults).world := by
      rw [steps]
      exact Does.refl
    exact bounded_of_inside none inv.counted (not_leavesOutermost_of_blocks top rfl)
  | connection flag =>
    have initialised : c.world.connection ≠ none :=
      fun gone => Nat.succ_ne_zero _ (before.mp gone)
    have leaves := leavesOutermost_iff leaving top rfl
    have does : Does (Leaving 0 flag) c.world (step c faults).world := by
      rw [steps]
      exact exitConnection_does c.world flag
    have left : Left c.world (step c faults).world flag c.world.transactions := by
      rw [steps]
      exact (exitConnection_left initialised flag).2
    refine bounded_of_leaving does (fun never => absurd never (by decide)) left
      (leaves.trans outer.1.symm) after fun outermost => ?_
    rw [steps]
    exact leaves.mp outermost
  | transaction flag since =>
    have initialised : c.world.connection ≠ none :=
      fun gone => Nat.succ_ne_zero _ (before.mp gone)
    have leaves := leavesOutermost_iff leaving top rfl
    have does : Does (Leaving c.world.transactions flag) c.world (step c faults).world := by
      rw [steps]
      exact exitTransaction_does c.world flag raised faults
    have left : Left c.world (step c faults).world flag (c.world.transactions - 1) := by
      rw [steps]
      exact exitTransaction_left initialised flag raised faults
    refine bounded_of_leaving does (fun last => ?_) left (leaves.trans outer.1.symm) after
      fun outermost => ?_
    · have counted := inv.counted
      rw [top, last] at counted
      refine ⟨leaving, flag, since, stack, top, ?_⟩
      simp only [transactionBlocks] at counted
      omega
    · rw [steps]
      exact leaves.mp outermost

/-- A step does what is promised of it. -/
theorem step_bounded (inv : Inv c) (faults : Faults) : Bounded c faults := by
  cases code : c.code with
  | exec prog =>
    have does : Does (Inside c.world.transactions) c.world (step c faults).world := by
      simp only [step, code]
      exact start_does _ c.world c.stack prog
    exact bounded_of_inside does inv.counted
      (not_leavesOutermost_of_code (by simp [code]) (by simp [code]))
  | body s =>
    have does : Does (Inside c.world.transactions) c.world (step c faults).world := by
      simp only [step, code]
      exact statement_does c.world s faults
    exact bounded_of_inside does inv.counted
      (not_leavesOutermost_of_code (by simp [code]) (by simp [code]))
  | done =>
    cases top : c.stack with
    | nil =>
      have same : step c faults = c := by simp only [step, code, top]
      exact bounded_of_inside (same.symm ▸ Does.refl) inv.counted (by simp [LeavesOutermost, top])
    | cons frame stack =>
      have steps : step c faults = leave c.world false faults stack frame := by
        simp only [step, code, top]
      exact leave_bounded inv (Or.inl code) top steps
  | raising =>
    cases top : c.stack with
    | nil =>
      have same : step c faults = c := by simp only [step, code, top]
      exact bounded_of_inside (same.symm ▸ Does.refl) inv.counted (by simp [LeavesOutermost, top])
    | cons frame stack =>
      have steps : step c faults = leave c.world true faults stack frame := by
        simp only [step, code, top]
      exact leave_bounded inv (Or.inr code) top steps

/-! ## The end of a thread -/

/-- How many steps a program takes at most. -/
def Prog.steps : Prog → Nat
  | .skip => 1
  | .raise => 1
  | .seq first second => first.steps + second.steps + 2
  | .tryExcept body handler => body.steps + handler.steps + 2
  | .connection body => body.steps + 2
  | .transaction body => body.steps + 2
  | .sql _ => 3

/-- How many steps a thread takes at most to leave a frame and to do what is left there. -/
def Frame.steps : Frame → Nat
  | .rest prog => prog.steps + 1
  | .handler prog => prog.steps + 1
  | .connection _ => 1
  | .transaction .. => 1

/-- How many steps a thread takes at most before its next frame is left. -/
def Code.steps : Code → Nat
  | .exec prog => prog.steps
  | .body _ => 1
  | .done => 0
  | .raising => 0

/-- How many steps a thread still takes at most. -/
def Config.steps (c : Config) : Nat := c.code.steps + (c.stack.map Frame.steps).sum

/-- A thread that has ended. -/
def Ended (c : Config) : Prop := (c.code = .done ∨ c.code = .raising) ∧ c.stack = []

/-- The code after a part has no steps of its own. -/
@[simp]
theorem ended_steps (raised : Bool) : (ended raised).steps = 0 := by
  cases raised <;> rfl

/-- Leaving a frame takes a step. -/
theorem leave_steps (w : World) (raised : Bool) (faults : Faults) (stack : List Frame)
    (frame : Frame) :
    (leave w raised faults stack frame).steps + 1 ≤
      frame.steps + (stack.map Frame.steps).sum := by
  cases frame with
  | rest prog | handler prog =>
    cases raised <;> simp only [leave, Config.steps, Code.steps, Frame.steps, if_true,
      Bool.false_eq_true, if_false] <;> omega
  | connection flag | transaction flag since =>
    simp only [leave, Config.steps, Frame.steps, ended_steps]
    omega

/-- Executing the first part of a program takes a step. -/
theorem start_steps (w : World) (stack : List Frame) (prog : Prog) :
    (start w stack prog).steps + 1 = prog.steps + (stack.map Frame.steps).sum := by
  cases prog <;> simp only [start, Config.steps, Code.steps, Prog.steps, Frame.steps,
    List.map_cons, List.sum_cons] <;> omega

/-- A step of a thread that has steps left leaves fewer. -/
theorem step_steps (c : Config) (faults : Faults) : (step c faults).steps ≤ c.steps - 1 := by
  obtain ⟨code, stack, w⟩ := c
  cases code with
  | exec prog =>
    have fewer := start_steps w stack prog
    simp only [step, Config.steps, Code.steps] at fewer ⊢
    omega
  | body s =>
    have one : (Code.body s).steps = 1 := rfl
    simp only [step, Config.steps, ended_steps, one]
    omega
  | done =>
    cases stack with
    | nil => exact Nat.zero_le _
    | cons frame stack =>
      have fewer := leave_steps w false faults stack frame
      simp only [step, Config.steps, Code.steps, List.map_cons, List.sum_cons] at fewer ⊢
      omega
  | raising =>
    cases stack with
    | nil => exact Nat.zero_le _
    | cons frame stack =>
      have fewer := leave_steps w true faults stack frame
      simp only [step, Config.steps, Code.steps, List.map_cons, List.sum_cons] at fewer ⊢
      omega

/-- A run uses up the steps. -/
theorem run_steps (c : Config) (faults : List Faults) :
    (run c faults).steps ≤ c.steps - faults.length := by
  induction faults generalizing c with
  | nil => exact Nat.le_refl _
  | cons first rest more =>
    have now := step_steps c first
    have later := more (step c first)
    simp only [run, List.foldl_cons, List.length_cons] at later ⊢
    omega

/-- A program has a step. -/
theorem Prog.steps_pos (prog : Prog) : 0 < prog.steps := by
  cases prog <;> simp only [Prog.steps] <;> omega

/-- A thread without steps has ended. -/
theorem Ended.of_steps (none : c.steps = 0) : Ended c := by
  obtain ⟨code, stack, w⟩ := c
  have counts : code.steps + (stack.map Frame.steps).sum = 0 := none
  have empty : stack = [] := by
    cases stack with
    | nil => rfl
    | cons frame stack =>
      simp only [List.map_cons, List.sum_cons] at counts
      have positive : 0 < frame.steps := by
        cases frame <;> simp only [Frame.steps] <;> omega
      omega
  have finished : code = .done ∨ code = .raising := by
    cases code with
    | exec prog =>
      have positive := prog.steps_pos
      simp only [Code.steps] at counts
      omega
    | body s =>
      simp only [Code.steps] at counts
      omega
    | done => exact Or.inl rfl
    | raising => exact Or.inr rfl
  exact ⟨finished, empty⟩

/-- In every state of every run the context is initialised inside blocks and counts the open
transaction blocks, and every connection but the current one was closed once; every step ends
transactions and closes connections only at the end of the outermost block of their kind; and
every run comes to an end, where all connections are closed. -/
theorem blocks_nested (prog : Prog) (faults : List Faults) :
    Nested (run (begin prog) faults) ∧
      (∀ next, Bounded (run (begin prog) faults) next) ∧
      (prog.steps ≤ faults.length →
        Ended (run (begin prog) faults) ∧
          ∀ id, .connect id ∈ (run (begin prog) faults).world.log →
            (run (begin prog) faults).world.log.count (.close id) = 1) := by
  have inv : Inv (run (begin prog) faults) := run_inv (begin_inv prog) faults
  refine ⟨inv.nested, step_bounded inv, ?_⟩
  intro long
  have used := run_steps (begin prog) faults
  have total : (begin prog).steps = prog.steps := rfl
  have finished : Ended (run (begin prog) faults) := Ended.of_steps (by omega)
  refine ⟨finished, fun id known => ?_⟩
  have outside : blocks (run (begin prog) faults).stack = 0 := by rw [finished.2]; rfl
  have gone := (inv.nested.uninitialised outside).1
  rw [inv.nested.closed id, if_pos ⟨known, by simp [gone]⟩]

end Runs

end CodeLearning.Transwarp
