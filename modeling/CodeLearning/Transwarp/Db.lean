import Mathlib.Logic.Function.Basic

/-!
# Connections and transactions of transwarp

A thread runs a program of nested `connection` and `transaction` blocks, SQL statements, raised
and caught exceptions. The context of the thread holds a lazy connection, which opens a driver
connection when a statement needs it, and the number of open transactions. Every call of the
driver may raise an exception, except the one that closes a connection; which calls raise is an
input of each step. The driver commits or rolls back the updates of a connection since its last
commit or rollback.
-/

namespace CodeLearning.Transwarp

/-- Calls of the driver that end a transaction or open or close a connection. -/
inductive Event where
  /-- `connect`. -/
  | connect (id : Nat)
  /-- `commit`, which may have raised an exception. -/
  | commit (id : Nat)
  /-- `rollback`, which may have raised an exception. -/
  | rollback (id : Nat)
  /-- `close`. -/
  | close (id : Nat)
deriving DecidableEq

/-- The context of the thread and the driver. -/
structure World where
  /-- `_db_ctx.connection`: `None`, or a lazy connection with its driver connection if any. -/
  connection : Option (Option Nat)
  /-- `_db_ctx.transactions`. -/
  transactions : Int
  /-- How many connections were opened; they are numbered from zero. -/
  opened : Nat
  /-- How many updates were executed; they are numbered from zero. -/
  executed : Nat
  /-- The updates of a connection since its last commit or rollback. -/
  pending : Nat → List Nat
  /-- The updates of each commit. -/
  committed : List (List Nat)
  /-- The calls of the driver. -/
  log : List Event

/-- Which calls of the driver raise an exception. -/
structure Faults where
  /-- `connect`. -/
  connect : Bool
  /-- `cursor`. -/
  cursor : Bool
  /-- `execute` or the reads of its result. -/
  execute : Bool
  /-- `commit`. -/
  commit : Bool
  /-- `rollback`. -/
  rollback : Bool
  /-- `close` of the cursor. -/
  closeCursor : Bool
deriving DecidableEq

/-- A state, and whether an exception was raised. -/
abbrev Outcome := World × Bool

/-! ## The lazy connection and the context -/

/-- `_LasyConnection.cursor`, called through the context. -/
def cursor (w : World) (faults : Faults) : Outcome :=
  match w.connection with
  | none => (w, true)
  | some (some _) => (w, faults.cursor)
  | some none =>
    if faults.connect then (w, true)
    else
      ({ w with
        connection := some (some w.opened)
        opened := w.opened + 1
        log := w.log ++ [.connect w.opened] }, faults.cursor)

/-- `_LasyConnection.commit`, called through the context; `None` has no such method. -/
def commit (w : World) (faults : Faults) : Outcome :=
  match w.connection with
  | some (some id) =>
    if faults.commit then ({ w with log := w.log ++ [.commit id] }, true)
    else
      ({ w with
        pending := Function.update w.pending id []
        committed := w.committed ++ [w.pending id]
        log := w.log ++ [.commit id] }, false)
  | _ => (w, true)

/-- `_LasyConnection.rollback`, called through the context; `None` has no such method. -/
def rollback (w : World) (faults : Faults) : Outcome :=
  match w.connection with
  | some (some id) =>
    if faults.rollback then ({ w with log := w.log ++ [.rollback id] }, true)
    else
      ({ w with
        pending := Function.update w.pending id []
        log := w.log ++ [.rollback id] }, false)
  | _ => (w, true)

/-- `_DbCtx.init`. -/
def init (w : World) : World := { w with connection := some none, transactions := 0 }

/-- `_DbCtx.cleanup`; the updates that were not committed are lost with the connection. -/
def cleanup (w : World) : Outcome :=
  match w.connection with
  | none => (w, true)
  | some none => ({ w with connection := none }, false)
  | some (some id) =>
    ({ w with
      connection := none
      pending := Function.update w.pending id []
      log := w.log ++ [.close id] }, false)

/-! ## The context managers -/

/-- The part of `__enter__` that both managers share: the context is initialised if it is not,
and the result says whether it was done here. -/
def ensureInit (w : World) : World × Bool :=
  if w.connection = none then (init w, true) else (w, false)

/-- `_TransactionCtx.__enter__`. -/
def enterTransaction (w : World) : World × Bool :=
  let entered := ensureInit w
  ({ entered.1 with transactions := entered.1.transactions + 1 }, entered.2)

/-- `_ConnectionCtx.__exit__`. -/
def exitConnection (w : World) (shouldCleanup : Bool) : Outcome :=
  if shouldCleanup then cleanup w else (w, false)

/-- `_TransactionCtx.commit`. -/
def commitTransaction (w : World) (faults : Faults) : Outcome :=
  let committed := commit w faults
  if committed.2 then ((rollback committed.1 faults).1, true) else committed

/-- What `_TransactionCtx.__exit__` does before its `finally`. -/
def endTransaction (w : World) (raised : Bool) (faults : Faults) : Outcome :=
  if w.transactions = 0 then
    if raised then rollback w faults else commitTransaction w faults
  else (w, false)

/-- `_TransactionCtx.__exit__`. -/
def exitTransaction (w : World) (shouldCloseConn raised : Bool) (faults : Faults) : Outcome :=
  let ended := endTransaction { w with transactions := w.transactions - 1 } raised faults
  if shouldCloseConn then ((cleanup ended.1).1, ended.2 || (cleanup ended.1).2) else ended

/-! ## Statements -/

/-- An SQL statement. -/
inductive Statement where
  /-- `_select`. -/
  | select
  /-- `_update`. -/
  | update
deriving DecidableEq

/-- `cursor.execute` of an update that raises no exception. -/
def execute (w : World) (id : Nat) : World :=
  { w with
    executed := w.executed + 1
    pending := Function.update w.pending id (w.pending id ++ [w.executed]) }

/-- `cursor.execute` of an update, and the commit outside of transactions. -/
def executeUpdate (w : World) (faults : Faults) : Outcome :=
  match w.connection with
  | some (some id) =>
    if faults.execute then (w, true)
    else if w.transactions = 0 then commit (execute w id) faults
    else (execute w id, false)
  | _ => (w, true)

/-- The bodies of `_select` and `_update`. -/
def statement (w : World) (s : Statement) (faults : Faults) : Outcome :=
  let opened := cursor w faults
  if opened.2 then (opened.1, true)
  else
    let executed :=
      match s with
      | .select => (opened.1, faults.execute)
      | .update => executeUpdate opened.1 faults
    (executed.1, executed.2 || faults.closeCursor)

/-! ## Programs -/

/-- A program of one thread. -/
inductive Prog where
  /-- Nothing. -/
  | skip
  /-- Raise an exception. -/
  | raise
  /-- One program after the other. -/
  | seq (first second : Prog)
  /-- `try` with an `except` that catches everything. -/
  | tryExcept (body handler : Prog)
  /-- `with connection()`. -/
  | connection (body : Prog)
  /-- `with transaction()`. -/
  | transaction (body : Prog)
  /-- A function for SQL statements, which `with_connection` decorates. -/
  | sql (s : Statement)
deriving DecidableEq

/-- What the thread does next. -/
inductive Code where
  /-- Execute a program. -/
  | exec (prog : Prog)
  /-- Execute the body of a function for SQL statements. -/
  | body (s : Statement)
  /-- Leave the innermost frame. -/
  | done
  /-- Leave the innermost frame by an exception. -/
  | raising
deriving DecidableEq

/-- What is left to do after a part of a program. -/
inductive Frame where
  /-- The rest of a sequence. -/
  | rest (prog : Prog)
  /-- The handler of exceptions. -/
  | handler (prog : Prog)
  /-- `__exit__` of a connection. -/
  | connection (shouldCleanup : Bool)
  /-- `__exit__` of a transaction, and how many updates were executed before it. -/
  | transaction (shouldCloseConn : Bool) (since : Nat)
deriving DecidableEq

/-- A state of the thread. -/
structure Config where
  /-- What it does next. -/
  code : Code
  /-- What is left to do then, the innermost part first. -/
  stack : List Frame
  /-- The context and the driver. -/
  world : World

/-- A part ends. -/
def ended (raised : Bool) : Code := if raised then .raising else .done

/-- Leave the innermost frame. -/
def leave (w : World) (raised : Bool) (faults : Faults) (stack : List Frame) : Frame → Config
  | .rest prog => ⟨if raised then .raising else .exec prog, stack, w⟩
  | .handler prog => ⟨if raised then .exec prog else .done, stack, w⟩
  | .connection shouldCleanup =>
    let left := exitConnection w shouldCleanup
    ⟨ended (raised || left.2), stack, left.1⟩
  | .transaction shouldCloseConn _ =>
    let left := exitTransaction w shouldCloseConn raised faults
    ⟨ended (raised || left.2), stack, left.1⟩

/-- Execute the first part of a program. -/
def start (w : World) (stack : List Frame) : Prog → Config
  | .skip => ⟨.done, stack, w⟩
  | .raise => ⟨.raising, stack, w⟩
  | .seq first second => ⟨.exec first, .rest second :: stack, w⟩
  | .tryExcept body handler => ⟨.exec body, .handler handler :: stack, w⟩
  | .connection body => ⟨.exec body, .connection (ensureInit w).2 :: stack, (ensureInit w).1⟩
  | .transaction body =>
    ⟨.exec body, .transaction (enterTransaction w).2 w.executed :: stack, (enterTransaction w).1⟩
  | .sql s => ⟨.body s, .connection (ensureInit w).2 :: stack, (ensureInit w).1⟩

/-- One step; after the last one nothing happens. -/
def step (c : Config) (faults : Faults) : Config :=
  match c.code, c.stack with
  | .exec prog, stack => start c.world stack prog
  | .body s, stack =>
    ⟨ended (statement c.world s faults).2, stack, (statement c.world s faults).1⟩
  | .done, frame :: stack => leave c.world false faults stack frame
  | .raising, frame :: stack => leave c.world true faults stack frame
  | .done, [] => c
  | .raising, [] => c

/-- A run. -/
def run (c : Config) (faults : List Faults) : Config := faults.foldl step c

/-- A new thread. -/
def begin (prog : Prog) : Config :=
  ⟨.exec prog, [], ⟨none, 0, 0, 0, fun _ => [], [], []⟩⟩

end CodeLearning.Transwarp
