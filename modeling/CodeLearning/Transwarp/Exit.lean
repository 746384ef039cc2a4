import CodeLearning.Transwarp.Transactions

/-!
# Exceptions that leave a transaction block

When every call of the driver succeeds, the only exception of the library is that of a method call
on `None`: `commit` and `rollback` of a lazy connection whose driver connection was never opened. A
program is evaluated here together with the exception that leaves it, where the exceptions of the
program itself have an identity. `__exit__` returns nothing, so that the exception of the body
goes on, unless `__exit__` raises one that takes its place. The steps of the thread do the same,
without telling the exceptions apart.
-/

namespace CodeLearning.Transwarp

/-- An exception of a program, or the `AttributeError` of a method call on `None`. -/
inductive Exc (E : Type) where
  /-- The program raised it. -/
  | raised (e : E)
  /-- `'NoneType' object has no attribute`. -/
  | attributeError
deriving DecidableEq

/-- A program whose exceptions have an identity. -/
inductive Body (E : Type) where
  /-- Nothing. -/
  | skip
  /-- Raise an exception. -/
  | raise (e : E)
  /-- One program after the other. -/
  | seq (first second : Body E)
  /-- `try` with an `except` that catches everything. -/
  | tryExcept (body handler : Body E)
  /-- `with connection()`. -/
  | connection (body : Body E)
  /-- `with transaction()`. -/
  | transaction (body : Body E)
  /-- A function for SQL statements, which `with_connection` decorates. -/
  | sql (s : Statement)

variable {E : Type}

/-- The exception of a part of the library that raises one. -/
def libraryRaises (raised : Bool) : Option (Exc E) := if raised then some .attributeError else none

/-- The end of a `with` statement: an exception of `__exit__` takes the place of that of the
body. -/
def leaveWith (exception : Option (Exc E)) (left : Outcome) : World × Option (Exc E) :=
  (left.1, if left.2 then some .attributeError else exception)

/-- The state after a program and the exception that leaves it, when every call of the driver
succeeds. -/
def eval : Body E → World → World × Option (Exc E)
  | .skip, w => (w, none)
  | .raise e, w => (w, some (.raised e))
  | .seq first second, w =>
    match eval first w with
    | (w, none) => eval second w
    | (w, some e) => (w, some e)
  | .tryExcept body handler, w =>
    match eval body w with
    | (w, none) => (w, none)
    | (w, some _) => eval handler w
  | .connection body, w =>
    let entered := ensureInit w
    let result := eval body entered.1
    leaveWith result.2 (exitConnection result.1 entered.2)
  | .transaction body, w =>
    let entered := enterTransaction w
    let result := eval body entered.1
    leaveWith result.2 (exitTransaction result.1 entered.2 result.2.isSome noFaults)
  | .sql s, w =>
    let entered := ensureInit w
    let result := statement entered.1 s noFaults
    leaveWith (libraryRaises result.2) (exitConnection result.1 entered.2)

/-- How many SQL statements a program executes. -/
def statements : Body E → World → Nat
  | .skip, _ => 0
  | .raise _, _ => 0
  | .seq first second, w =>
    statements first w +
      if (eval first w).2.isSome then 0 else statements second (eval first w).1
  | .tryExcept body handler, w =>
    statements body w + if (eval body w).2.isSome then statements handler (eval body w).1 else 0
  | .connection body, w => statements body (ensureInit w).1
  | .transaction body, w => statements body (enterTransaction w).1
  | .sql _, _ => 1

/-- The program enters a transaction block with this body in this state. -/
inductive Enters : Body E → World → Body E → World → Prop where
  /-- The program is the block. -/
  | here {body : Body E} {w : World} : Enters (.transaction body) w body w
  /-- The block is in a transaction block. -/
  | transaction {inner body : Body E} {w w' : World}
      (inside : Enters inner (enterTransaction w).1 body w') :
      Enters (.transaction inner) w body w'
  /-- The block is in a connection block. -/
  | connection {inner body : Body E} {w w' : World}
      (inside : Enters inner (ensureInit w).1 body w') : Enters (.connection inner) w body w'
  /-- The block is in the first of two programs. -/
  | first {first second body : Body E} {w w' : World} (inside : Enters first w body w') :
      Enters (.seq first second) w body w'
  /-- The block is in the second of two programs, and the first one completes. -/
  | second {first second body : Body E} {w w' : World} (completes : (eval first w).2 = none)
      (inside : Enters second (eval first w).1 body w') : Enters (.seq first second) w body w'
  /-- The block is in a `try`. -/
  | tried {tried handler body : Body E} {w w' : World} (inside : Enters tried w body w') :
      Enters (.tryExcept tried handler) w body w'
  /-- The block is in a handler, and what it handles raises an exception. -/
  | handled {tried handler body : Body E} {w w' : World} (raises : (eval tried w).2 ≠ none)
      (inside : Enters handler (eval tried w).1 body w') :
      Enters (.tryExcept tried handler) w body w'

/-- The driver connection is open. -/
def Connected (w : World) : Prop := ∃ id, w.connection = some (some id)

/-- The context counts no transactions before it is initialised, and never a negative number. -/
structure Consistent (w : World) : Prop where
  /-- The number is not negative. -/
  count : 0 ≤ w.transactions
  /-- It is zero without a connection. -/
  outside : w.connection = none → w.transactions = 0

/-- The context of a new thread. -/
def newThread : World := ⟨none, 0, 0, 0, fun _ => [], [], []⟩

/-! ## The steps of the thread -/

/-- The program without the identity of its exceptions. -/
def Body.prog : Body E → Prog
  | .skip => .skip
  | .raise _ => .raise
  | .seq first second => .seq first.prog second.prog
  | .tryExcept body handler => .tryExcept body.prog handler.prog
  | .connection body => .connection body.prog
  | .transaction body => .transaction body.prog
  | .sql s => .sql s

/-- Some steps of the thread in which no call of the driver fails. -/
def Steps (c d : Config) : Prop := ∃ n, run c (List.replicate n noFaults) = d

/-- One step. -/
theorem Steps.one (c : Config) : Steps c (step c noFaults) := ⟨1, rfl⟩

/-- Some steps after others. -/
theorem Steps.trans {c d e : Config} (first : Steps c d) (second : Steps d e) : Steps c e := by
  obtain ⟨n, rfl⟩ := first
  obtain ⟨m, rfl⟩ := second
  refine ⟨n + m, ?_⟩
  rw [← List.replicate_append_replicate, run, List.foldl_append]
  rfl

/-- The step that leaves a frame. -/
theorem step_ended (raised : Bool) (frame : Frame) (stack : List Frame) (w : World) :
    step ⟨ended raised, frame :: stack, w⟩ noFaults = leave w raised noFaults stack frame := by
  cases raised <;> rfl

/-- Whether an exception leaves a `with` statement. -/
theorem leaveWith_isSome (exception : Option (Exc E)) (left : Outcome) :
    (leaveWith exception left).2.isSome = (exception.isSome || left.2) := by
  unfold leaveWith
  cases left.2 <;> simp

/-- The thread executes a program in as many steps as it needs, and ends it in the state and with
an exception or none as it is evaluated. -/
theorem steps_prog (body : Body E) (w : World) (stack : List Frame) :
    Steps ⟨.exec body.prog, stack, w⟩
      ⟨ended (eval body w).2.isSome, stack, (eval body w).1⟩ := by
  induction body generalizing w stack with
  | skip => exact Steps.one _
  | raise e => exact Steps.one _
  | seq first second before1 before2 =>
    have enters := Steps.one ⟨.exec (first.seq second).prog, stack, w⟩
    have runs := enters.trans (before1 w (.rest second.prog :: stack))
    have leaves := runs.trans (Steps.one _)
    rw [step_ended] at leaves
    rw [eval]
    rcases result : eval first w with ⟨w', _ | e⟩
    · rw [result] at leaves
      exact leaves.trans (before2 w' stack)
    · rw [result] at leaves
      exact leaves
  | tryExcept body handler before1 before2 =>
    have enters := Steps.one ⟨.exec (body.tryExcept handler).prog, stack, w⟩
    have runs := enters.trans (before1 w (.handler handler.prog :: stack))
    have leaves := runs.trans (Steps.one _)
    rw [step_ended] at leaves
    rw [eval]
    rcases result : eval body w with ⟨w', _ | e⟩
    · rw [result] at leaves
      exact leaves
    · rw [result] at leaves
      exact leaves.trans (before2 w' stack)
  | connection body before =>
    have enters := Steps.one ⟨.exec (Body.connection body).prog, stack, w⟩
    have runs := enters.trans (before (ensureInit w).1 (.connection (ensureInit w).2 :: stack))
    have leaves := runs.trans (Steps.one _)
    rw [step_ended] at leaves
    rw [eval, leaveWith_isSome]
    exact leaves
  | transaction body before =>
    have enters := Steps.one ⟨.exec (Body.transaction body).prog, stack, w⟩
    have runs := enters.trans (before (enterTransaction w).1
      (.transaction (enterTransaction w).2 w.executed :: stack))
    have leaves := runs.trans (Steps.one _)
    rw [step_ended] at leaves
    rw [eval, leaveWith_isSome]
    exact leaves
  | sql s =>
    have enters := Steps.one ⟨.exec (.sql s), stack, w⟩
    have runs := enters.trans (Steps.one _)
    have leaves : Steps _ (step ⟨ended (statement (ensureInit w).1 s noFaults).2,
      .connection (ensureInit w).2 :: stack, (statement (ensureInit w).1 s noFaults).1⟩ noFaults) :=
      runs.trans (Steps.one _)
    rw [step_ended] at leaves
    rw [eval, leaveWith_isSome]
    have raises : ((libraryRaises (statement (ensureInit w).1 s noFaults).2 :
        Option (Exc E))).isSome = (statement (ensureInit w).1 s noFaults).2 := by
      unfold libraryRaises
      cases (statement (ensureInit w).1 s noFaults).2 <;> rfl
    rw [raises]
    exact leaves

/-! ## What a program leaves behind -/

section Keeps

variable {w : World}

/-- A block that is entered and left keeps the context as it was. -/
structure Keeps (w w' : World) : Prop where
  /-- It is initialised after it if it was before. -/
  connection : w'.connection = none ↔ w.connection = none
  /-- As many transactions are open. -/
  transactions : w'.transactions = w.transactions

/-- What is kept is kept consistent. -/
theorem Keeps.consistent {w' : World} (keeps : Keeps w w') (consistent : Consistent w) :
    Consistent w' := by
  refine ⟨?_, ?_⟩
  · rw [keeps.transactions]
    exact consistent.count
  · intro none_
    rw [keeps.transactions]
    exact consistent.outside (keeps.connection.mp none_)

/-- Nothing changes. -/
theorem Keeps.refl : Keeps w w := ⟨Iff.rfl, rfl⟩

/-- One part after the other. -/
theorem Keeps.trans {w' w'' : World} (first : Keeps w w') (second : Keeps w' w'') : Keeps w w'' :=
  ⟨second.connection.trans first.connection, second.transactions.trans first.transactions⟩

/-- `__enter__` initialises the context and keeps what is consistent. -/
theorem ensureInit_enters (consistent : Consistent w) :
    (ensureInit w).1.connection ≠ none ∧ (ensureInit w).1.transactions = w.transactions ∧
      ((ensureInit w).2 = true ↔ w.connection = none) ∧
      (Connected (ensureInit w).1 ↔ Connected w) := by
  obtain ⟨initialised, flag, -, -, -⟩ := ensureInit_spec w
  unfold ensureInit at initialised flag ⊢
  split
  · rename_i outside
    refine ⟨by simp [init], (consistent.outside outside).symm, by simp [outside], ?_⟩
    simp [Connected, init, outside]
  · rename_i inside
    exact ⟨inside, rfl, by simp [inside], Iff.rfl⟩

/-- `__enter__` of a transaction. -/
theorem enterTransaction_enters (consistent : Consistent w) :
    (enterTransaction w).1.connection ≠ none ∧
      (enterTransaction w).1.transactions = w.transactions + 1 ∧
      ((enterTransaction w).2 = true ↔ w.connection = none) ∧
      (Connected (enterTransaction w).1 ↔ Connected w) := by
  obtain ⟨initialised, transactions, flag, connected⟩ := ensureInit_enters consistent
  refine ⟨initialised, ?_, flag, connected⟩
  show (ensureInit w).1.transactions + 1 = w.transactions + 1
  rw [transactions]

/-- An initialised context with a number of transactions that is not negative is consistent. -/
theorem Consistent.inside (initialised : w.connection ≠ none) (count : 0 ≤ w.transactions) :
    Consistent w :=
  ⟨count, fun outside => absurd outside initialised⟩

/-- Entering a block keeps the context consistent. -/
theorem Consistent.ensureInit (consistent : Consistent w) : Consistent (ensureInit w).1 := by
  obtain ⟨initialised, transactions, -, -⟩ := ensureInit_enters consistent
  exact Consistent.inside initialised (transactions ▸ consistent.count)

/-- Entering a transaction keeps the context consistent. -/
theorem Consistent.enterTransaction (consistent : Consistent w) :
    Consistent (enterTransaction w).1 := by
  obtain ⟨initialised, transactions, -, -⟩ := enterTransaction_enters consistent
  have count := consistent.count
  exact Consistent.inside initialised (by omega)

/-- A block that cleans up when it initialised the context keeps it. -/
theorem Left.keeps {entered body left : World} {flag : Bool} {transactions : Int}
    (initialised : (entered.connection ≠ none)) (flagged : flag = true ↔ w.connection = none)
    (inside : Keeps entered body) (leaves : Left body left flag transactions)
    (count : transactions = w.transactions) : Keeps w left := by
  refine ⟨?_, leaves.transactions.trans count⟩
  cases flag with
  | true =>
    have outside := flagged.mp rfl
    have cleaned := leaves.cleaned rfl
    simp [outside, cleaned]
  | false =>
    have before : w.connection ≠ none := fun outside => by simpa using flagged.mpr outside
    have kept : body.connection ≠ none := fun gone => initialised (inside.connection.mp gone)
    rw [leaves.kept rfl]
    simp [before, kept]

/-- A program keeps the context. -/
theorem eval_keeps (body : Body E) (consistent : Consistent w) : Keeps w (eval body w).1 := by
  induction body generalizing w with
  | skip => exact Keeps.refl
  | raise e => exact Keeps.refl
  | seq first second before1 before2 =>
    have keeps := before1 consistent
    rw [eval]
    rcases result : eval first w with ⟨w', _ | e⟩
    · rw [result] at keeps
      exact keeps.trans (before2 (keeps.consistent consistent))
    · rw [result] at keeps
      exact keeps
  | tryExcept body handler before1 before2 =>
    have keeps := before1 consistent
    rw [eval]
    rcases result : eval body w with ⟨w', _ | e⟩
    · rw [result] at keeps
      exact keeps
    · rw [result] at keeps
      exact keeps.trans (before2 (keeps.consistent consistent))
  | connection body before =>
    obtain ⟨initialised, transactions, flag, -⟩ := ensureInit_enters consistent
    have inside := before consistent.ensureInit
    have still : (eval body (ensureInit w).1).1.connection ≠ none :=
      fun gone => initialised (inside.connection.mp gone)
    exact (exitConnection_left still (ensureInit w).2).2.keeps initialised flag inside
      (inside.transactions.trans transactions)
  | transaction body before =>
    obtain ⟨initialised, transactions, flag, -⟩ := enterTransaction_enters consistent
    have inside := before consistent.enterTransaction
    have still : (eval body (enterTransaction w).1).1.connection ≠ none :=
      fun gone => initialised (inside.connection.mp gone)
    have count := inside.transactions
    exact (exitTransaction_left still (enterTransaction w).2 _ noFaults).keeps initialised flag
      inside (by omega)
  | sql s =>
    obtain ⟨initialised, transactions, flag, -⟩ := ensureInit_enters consistent
    obtain ⟨connection, count⟩ := statement_keeps (ensureInit w).1 s noFaults
    have inside : Keeps (ensureInit w).1 (statement (ensureInit w).1 s noFaults).1 :=
      ⟨connection, count⟩
    have still : (statement (ensureInit w).1 s noFaults).1.connection ≠ none :=
      fun gone => initialised (connection.mp gone)
    exact (exitConnection_left still (ensureInit w).2).2.keeps initialised flag inside
      (count.trans transactions)

/-- A block is entered in a consistent context. -/
theorem Enters.consistent {prog body : Body E} {w' : World} (enters : Enters prog w body w')
    (consistent : Consistent w) : Consistent w' := by
  induction enters with
  | here => exact consistent
  | transaction _ before => exact before consistent.enterTransaction
  | connection _ before => exact before consistent.ensureInit
  | first _ before => exact before consistent
  | second _ _ before => exact before ((eval_keeps _ consistent).consistent consistent)
  | tried _ before => exact before consistent
  | handled _ _ before => exact before ((eval_keeps _ consistent).consistent consistent)

end Keeps

/-! ## The driver connection inside a transaction -/

section Inside

variable {w : World}

/-- `commit` raises an exception when there is no driver connection. -/
theorem commit_raises (w : World) : (commit w noFaults).2 = true ↔ ¬ Connected w := by
  unfold commit Connected
  rcases w.connection with _ | _ | id <;> simp [noFaults]

/-- `rollback` does the same. -/
theorem rollback_raises (w : World) : (rollback w noFaults).2 = true ↔ ¬ Connected w := by
  unfold rollback Connected
  rcases w.connection with _ | _ | id <;> simp [noFaults]

/-- A statement in an initialised context opens the driver connection and raises nothing. -/
theorem statement_connected (initialised : w.connection ≠ none) (s : Statement) :
    (statement w s noFaults).2 = false ∧ Connected (statement w s noFaults).1 := by
  have opens : (cursor w noFaults).2 = false ∧ Connected (cursor w noFaults).1 := by
    unfold cursor
    rcases here : w.connection with _ | _ | id
    · exact absurd here initialised
    · exact ⟨rfl, w.opened, rfl⟩
    · exact ⟨rfl, id, here⟩
  obtain ⟨fine, id, here⟩ := opens
  unfold statement
  dsimp only
  rw [if_neg (by simp [fine])]
  cases s with
  | select => exact ⟨rfl, id, here⟩
  | update =>
    have keeps := (executeUpdate_keeps (cursor w noFaults).1 noFaults).1
    refine ⟨?_, id, keeps.trans here⟩
    have executes : (executeUpdate (cursor w noFaults).1 noFaults).2 = false := by
      unfold executeUpdate
      rw [here]
      dsimp only
      rw [if_neg (by decide)]
      split
      · rw [← Bool.not_eq_true, commit_raises, not_not]
        exact ⟨id, here⟩
      · rfl
    rw [executes]
    rfl

/-- `__exit__` of a transaction, before its `finally`, raises an exception when it ends the
transaction without a driver connection. -/
theorem endTransaction_raises (w : World) (raised : Bool) :
    (endTransaction w raised noFaults).2 = true ↔ w.transactions = 0 ∧ ¬ Connected w := by
  unfold endTransaction
  split
  · rename_i outermost
    cases raised with
    | true => simp [rollback_raises, outermost]
    | false =>
      have commits := commit_raises w
      unfold commitTransaction
      cases failed : (commit w noFaults).2 <;> simp_all
  · rename_i inner
    simp [inner]

/-- `__exit__` of the outermost transaction raises an exception without a driver connection. -/
theorem exitTransaction_raises (initialised : w.connection ≠ none) (flag raised : Bool) :
    (exitTransaction w flag raised noFaults).2 = true ↔ w.transactions = 1 ∧ ¬ Connected w := by
  have fewer := endTransaction_raises { w with transactions := w.transactions - 1 } raised
  have kept := (endTransaction_keeps { w with transactions := w.transactions - 1 } raised
    noFaults).1
  have count : (w.transactions - 1 = 0 ∧ ¬ Connected w) ↔ (w.transactions = 1 ∧ ¬ Connected w) := by
    constructor
    · rintro ⟨last, closed⟩
      exact ⟨by omega, closed⟩
    · rintro ⟨last, closed⟩
      exact ⟨by omega, closed⟩
  have ends := fewer.trans count
  unfold exitTransaction
  cases flag with
  | false => exact ends
  | true =>
    have fine := (cleanup_spec (by rw [kept]; exact initialised)).1
    simp only [if_true, fine, Bool.or_false]
    exact ends

/-- A transaction is open. -/
structure InTransaction (w : World) : Prop where
  /-- The context is initialised. -/
  initialised : w.connection ≠ none
  /-- It counts a transaction. -/
  count : 0 < w.transactions

/-- The context of an open transaction is consistent. -/
theorem InTransaction.consistent (inside : InTransaction w) : Consistent w :=
  Consistent.inside inside.initialised (Int.le_of_lt inside.count)

/-- A program leaves the transaction open. -/
theorem InTransaction.eval (inside : InTransaction w) (body : Body E) :
    InTransaction (eval body w).1 := by
  have keeps := eval_keeps body inside.consistent
  refine ⟨fun gone => inside.initialised (keeps.connection.mp gone), ?_⟩
  rw [keeps.transactions]
  exact inside.count

/-- The body of a transaction block is inside a transaction. -/
theorem Consistent.inTransaction (consistent : Consistent w) :
    InTransaction (Transwarp.enterTransaction w).1 := by
  obtain ⟨initialised, transactions, -, -⟩ := enterTransaction_enters consistent
  have count := consistent.count
  exact ⟨initialised, by omega⟩

/-- The driver connection is open after a part of a program when it was before or the part executed
a statement, and the library raises nothing. -/
structure Inner (w : World) (result : World × Option (Exc E)) (executed : Nat) : Prop where
  /-- The program raises its own exceptions. -/
  own : result.2 ≠ some .attributeError
  /-- The driver connection. -/
  connected : Connected result.1 ↔ Connected w ∨ 0 < executed

/-- One part after the other. -/
theorem Inner.trans {first second : World × Option (Exc E)} {n m : Nat} (one : Inner w first n)
    (two : Inner first.1 second m) : Inner w second (n + m) := by
  refine ⟨two.own, ?_⟩
  rw [two.connected, one.connected, or_assoc]
  have either : (0 < n ∨ 0 < m) ↔ 0 < n + m := by omega
  rw [either]

/-- `__exit__` after a body raises an exception at the end of the outermost transaction, when the
driver connection was not open before and the body executed no statement. -/
theorem exit_raises (consistent : Consistent w) {body : Body E}
    (inner : Inner (enterTransaction w).1 (eval body (enterTransaction w).1)
      (statements body (enterTransaction w).1)) (flag raised : Bool) :
    (exitTransaction (eval body (enterTransaction w).1).1 flag raised noFaults).2 = true ↔
      ¬ (0 < w.transactions ∨ Connected w ∨ 0 < statements body (enterTransaction w).1) := by
  obtain ⟨-, transactions, -, connected⟩ := enterTransaction_enters consistent
  have inside := consistent.inTransaction
  have keeps := eval_keeps body inside.consistent
  have count := consistent.count
  have last : (eval body (enterTransaction w).1).1.transactions = 1 ↔ ¬ 0 < w.transactions := by
    rw [keeps.transactions, transactions]
    omega
  rw [exitTransaction_raises (inside.eval body).initialised, last, inner.connected, connected,
    ← not_or]

/-- What a program does inside a transaction. -/
theorem InTransaction.inner (inside : InTransaction w) (body : Body E) :
    Inner w (Transwarp.eval body w) (statements body w) := by
  induction body generalizing w with
  | skip => exact ⟨by simp [Transwarp.eval], by simp [Transwarp.eval, statements]⟩
  | raise e => exact ⟨by simp [Transwarp.eval], by simp [Transwarp.eval, statements]⟩
  | seq first second before1 before2 =>
    have one := before1 inside
    have two := before2 (inside.eval first)
    rw [Transwarp.eval, statements]
    rcases result : Transwarp.eval first w with ⟨w', _ | e⟩
    · rw [result] at one two
      exact one.trans two
    · rw [result] at one
      exact one
  | tryExcept body handler before1 before2 =>
    have one := before1 inside
    have two := before2 (inside.eval body)
    rw [Transwarp.eval, statements]
    rcases result : Transwarp.eval body w with ⟨w', _ | e⟩
    · rw [result] at one
      exact one
    · rw [result] at one two
      exact one.trans two
  | connection body before =>
    have entered : ensureInit w = (w, false) := if_neg inside.initialised
    rw [Transwarp.eval, statements, entered]
    exact before inside
  | transaction body before =>
    obtain ⟨initialised, transactions, -, connected⟩ := enterTransaction_enters inside.consistent
    have entered : InTransaction (enterTransaction w).1 := inside.consistent.inTransaction
    have one := before entered
    have flag : (enterTransaction w).2 = false := by
      simp [enterTransaction, ensureInit, inside.initialised]
    -- The block is not the outermost one, so that `__exit__` only counts it.
    have fine : (exitTransaction (Transwarp.eval body (enterTransaction w).1).1 false
        (Transwarp.eval body (enterTransaction w).1).2.isSome noFaults).2 = false := by
      rw [← Bool.not_eq_true, exit_raises inside.consistent one, not_not]
      exact Or.inl inside.count
    have kept := (exitTransaction_left (entered.eval body).initialised false
      (Transwarp.eval body (enterTransaction w).1).2.isSome noFaults).kept rfl
    rw [Transwarp.eval, statements, flag]
    refine ⟨?_, ?_⟩
    · simp only [leaveWith, fine, Bool.false_eq_true, if_false]
      exact one.own
    · have same : Connected (exitTransaction (Transwarp.eval body (enterTransaction w).1).1 false
          (Transwarp.eval body (enterTransaction w).1).2.isSome noFaults).1 ↔
          Connected (Transwarp.eval body (enterTransaction w).1).1 := by
        simp only [Connected, kept]
      exact same.trans (one.connected.trans (or_congr_left connected))
  | sql s =>
    have entered : ensureInit w = (w, false) := if_neg inside.initialised
    obtain ⟨fine, open_⟩ := statement_connected inside.initialised s
    rw [Transwarp.eval, statements, entered]
    refine ⟨by simp [leaveWith, exitConnection, libraryRaises, fine], ?_⟩
    simpa [leaveWith, exitConnection] using open_

end Inside

/-- Whenever a program enters a transaction block and every call of the driver succeeds, the
exception of the body, or none, is what leaves the `with` statement, exactly when the block is
inside another one, or the driver connection is already open, or the body executes a statement. -/
theorem transaction_exit_iff (prog body : Body E) (w : World)
    (enters : Enters prog newThread body w) :
    (eval (.transaction body) w).2 = (eval body (enterTransaction w).1).2 ↔
      0 < w.transactions ∨ Connected w ∨ 0 < statements body (enterTransaction w).1 := by
  have new : Consistent newThread := ⟨Int.le_refl _, fun _ => rfl⟩
  have consistent := enters.consistent new
  have inner := consistent.inTransaction.inner body
  have raises := exit_raises consistent inner (enterTransaction w).2
    (eval body (enterTransaction w).1).2.isSome
  rw [eval]
  simp only [leaveWith]
  cases failed : (exitTransaction (eval body (enterTransaction w).1).1 (enterTransaction w).2
    (eval body (enterTransaction w).1).2.isSome noFaults).2 with
  | true =>
    simp only [if_true]
    exact iff_of_false (Ne.symm inner.own) (raises.mp failed)
  | false =>
    simp only [Bool.false_eq_true, if_false]
    exact iff_of_true trivial (not_not.mp fun bad => by simp [raises.mpr bad] at failed)

/-- A body that updates and then raises an exception makes this exception leave the block. -/
theorem transaction_exit_update :
    (eval (.transaction (.seq (.sql .update) (.raise 7))) newThread).2 = some (.raised 7) := by
  have enters : Enters (.transaction (.seq (.sql .update) (.raise 7))) newThread
      (.seq (.sql .update) (.raise 7)) newThread := .here
  rw [(transaction_exit_iff _ _ _ enters).mpr (Or.inr (Or.inr (by decide)))]
  decide

/-- A block that executes no statement raises an exception of the library: instead of none when
its body completes, and in place of the exception that its body raises. -/
theorem transaction_exit_empty :
    (∃ prog : Body Nat, Enters prog newThread .skip newThread) ∧
      (eval (.skip : Body Nat) (enterTransaction newThread).1).2 = none ∧
      (eval (.transaction .skip : Body Nat) newThread).2 = some .attributeError ∧
      (eval (.raise 7 : Body Nat) (enterTransaction newThread).1).2 = some (.raised 7) ∧
      (eval (.transaction (.raise 7) : Body Nat) newThread).2 = some .attributeError :=
  ⟨⟨_, .here⟩, by decide, by decide, by decide, by decide⟩

end CodeLearning.Transwarp
