import CodeLearning.Lib.ByteFile
import Mathlib.Logic.Function.Basic
import Mathlib.Logic.Relation

/-!
# Programs over locked files

A program is a tree of system calls: positioned reads and writes of files, the size of a
file, and record locks as `fcntl` with `F_SETLKW` gives them, byte by byte and per process.
Each call is one atomic step. A process that calls `abort` exits, and the kernel then drops
its locks; `hang` is a loop that never ends. `run` executes one process alone; `Step` is one
step of any process of a pool, a process that waits for a lock taking none.
-/

namespace CodeLearning

namespace FileProgram

open ByteFile

/-- Mode of a record lock: `F_RDLCK` or `F_WRLCK`. -/
inductive LockMode where
  | read
  | write
  deriving DecidableEq

/-- A byte range of `struct flock` with `l_whence` at `SEEK_SET`. -/
structure Range where
  /-- First byte. -/
  start : Nat
  /-- Number of bytes; `0` reaches past every end of the file. -/
  len : Nat
  deriving DecidableEq

/-- The byte is in the range. -/
def Range.Contains (range : Range) (byte : Nat) : Prop :=
  range.start ≤ byte ∧ (range.len = 0 ∨ byte < range.start + range.len)

/-- Whether a range contains a byte can be decided. -/
instance (range : Range) (byte : Nat) : Decidable (range.Contains byte) :=
  inferInstanceAs (Decidable (_ ∧ _))

/-- A lock may be placed beside what another process holds. -/
def LockMode.Compatible : LockMode → Option LockMode → Prop
  | _, none => True
  | .read, some .read => True
  | _, _ => False

/-- One system call, or a mark in the log of the run. -/
inductive Op (F N : Type) where
  /-- Wait for a lock. -/
  | lock (file : F) (mode : LockMode) (range : Range)
  /-- Drop a lock. -/
  | unlock (file : F) (range : Range)
  /-- Offset of the end of the file. -/
  | size (file : F)
  /-- Positioned read. -/
  | read (file : F) (off len : Nat)
  /-- Positioned write. -/
  | write (file : F) (off : Nat) (bytes : Bytes)
  /-- A mark for the reader of the run; the files do not see it. -/
  | note (mark : N)

/-- What a call returns. -/
@[reducible]
def Op.Answer {F N : Type} : Op F N → Type
  | .size _ => Nat
  | .read .. => Bytes
  | _ => Unit

/-- A program over files `F` that fails with `E`, marks the log with `N` and returns `α`. -/
inductive Prog (F E N α : Type) where
  /-- The program returns. -/
  | ret (value : α)
  /-- The process exits with a failure. -/
  | abort (failure : E)
  /-- The process loops for ever. -/
  | hang
  /-- A call, and what follows its answer. -/
  | op (call : Op F N) (rest : call.Answer → Prog F E N α)

namespace Prog

variable {F E N α β : Type}

/-- Sequence of two programs. -/
def bind : Prog F E N α → (α → Prog F E N β) → Prog F E N β
  | .ret value, f => f value
  | .abort failure, _ => .abort failure
  | .hang, _ => .hang
  | .op call rest, f => .op call fun answer => (rest answer).bind f

/-- Programs are sequenced by `bind`. -/
instance : Monad (Prog F E N) where
  pure := .ret
  bind := bind

/-- Take a lock, waiting for it. -/
def lock (file : F) (mode : LockMode) (range : Range) : Prog F E N Unit :=
  .op (.lock file mode range) .ret

/-- Drop a lock. -/
def unlock (file : F) (range : Range) : Prog F E N Unit := .op (.unlock file range) .ret

/-- Size of a file. -/
def size (file : F) : Prog F E N Nat := .op (.size file) .ret

/-- Read from a file. -/
def read (file : F) (off len : Nat) : Prog F E N Bytes := .op (.read file off len) .ret

/-- Write to a file. -/
def write (file : F) (off : Nat) (bytes : Bytes) : Prog F E N Unit :=
  .op (.write file off bytes) .ret

/-- Mark the log. -/
def note (mark : N) : Prog F E N Unit := .op (.note mark) .ret

/-- `pure` returns. -/
@[simp]
theorem pure_eq (value : α) : (pure value : Prog F E N α) = .ret value := rfl

/-- A program that returns hands its value on. -/
@[simp]
theorem ret_bind (value : α) (f : α → Prog F E N β) : (ret value >>= f) = f value := rfl

/-- Nothing follows a failure. -/
@[simp]
theorem abort_bind (failure : E) (f : α → Prog F E N β) :
    ((abort failure : Prog F E N α) >>= f) = .abort failure := rfl

/-- Nothing follows a program that hangs. -/
@[simp]
theorem hang_bind (f : α → Prog F E N β) : ((hang : Prog F E N α) >>= f) = .hang := rfl

/-- An operation is followed by the rest and what comes after it. -/
@[simp]
theorem op_bind (call : Op F N) (rest : call.Answer → Prog F E N α) (f : α → Prog F E N β) :
    (op call rest >>= f) = .op call fun answer => rest answer >>= f := rfl

/-- A sequence does not depend on how it is grouped. -/
theorem seq_assoc {γ : Type} (prog : Prog F E N α) (f : α → Prog F E N β)
    (f' : β → Prog F E N γ) : (prog >>= f >>= f') = (prog >>= fun value => f value >>= f') := by
  induction prog with
  | ret value => rfl
  | abort failure => rfl
  | hang => rfl
  | op call rest step =>
    show op call _ = op call _
    congr 1
    funext answer
    exact step answer

/-- A lock first. -/
@[simp]
theorem lock_bind (file : F) (mode : LockMode) (range : Range) (f : Unit → Prog F E N α) :
    (lock file mode range >>= f) = .op (.lock file mode range) f := rfl

/-- An unlock first. -/
@[simp]
theorem unlock_bind (file : F) (range : Range) (f : Unit → Prog F E N α) :
    (unlock file range >>= f) = .op (.unlock file range) f := rfl

/-- A size first. -/
@[simp]
theorem size_bind (file : F) (f : Nat → Prog F E N α) :
    (size file >>= f) = .op (.size file) f := rfl

/-- A read first. -/
@[simp]
theorem read_bind (file : F) (off len : Nat) (f : Bytes → Prog F E N α) :
    (read file off len >>= f) = .op (.read file off len) f := rfl

/-- A write first. -/
@[simp]
theorem write_bind (file : F) (off : Nat) (bytes : Bytes) (f : Unit → Prog F E N α) :
    (write file off bytes >>= f) = .op (.write file off bytes) f := rfl

/-- A note first. -/
@[simp]
theorem note_bind (mark : N) (f : Unit → Prog F E N α) :
    (note mark >>= f) = .op (.note mark) f := rfl

end Prog

/-- What all processes `P` share. -/
structure World (P F N : Type) where
  /-- Content of each file. -/
  files : F → Bytes
  /-- Locks of each process, byte by byte. -/
  locks : P → F → Nat → Option LockMode
  /-- Marks of the run, oldest first. -/
  log : List (P × N)

namespace World

variable {P F N : Type} [DecidableEq P] [DecidableEq F]

/-- A process sets the mode of its locks on a range. -/
def setLocks (w : World P F N) (p : P) (file : F) (range : Range) (mode : Option LockMode) :
    World P F N :=
  { w with locks := fun q f b =>
      if q = p ∧ f = file ∧ range.Contains b then mode else w.locks q f b }

/-- The kernel drops the locks of a process that exits. -/
def dropLocks (w : World P F N) (p : P) : World P F N :=
  { w with locks := Function.update w.locks p fun _ _ => none }

/-- The call does not wait: no other process holds a lock against it. -/
def Enabled (w : World P F N) (p : P) : Op F N → Prop
  | .lock file mode range =>
    ∀ q, q ≠ p → ∀ b, range.Contains b → mode.Compatible (w.locks q file b)
  | _ => True

/-- Effect of a call. -/
def act (w : World P F N) (p : P) : Op F N → World P F N
  | .lock file mode range => w.setLocks p file range (some mode)
  | .unlock file range => w.setLocks p file range none
  | .size _ => w
  | .read .. => w
  | .write file off bytes =>
    { w with files := Function.update w.files file (writeAt (w.files file) off bytes) }
  | .note mark => { w with log := w.log ++ [(p, mark)] }

omit [DecidableEq P] [DecidableEq F] in
/-- Answer to a call. -/
def answer (w : World P F N) : (call : Op F N) → call.Answer
  | .size file => (w.files file).length
  | .read file off len => readAt (w.files file) off len
  | .lock .. => ()
  | .unlock .. => ()
  | .write .. => ()
  | .note _ => ()

end World

/-- How a program ends. -/
inductive Outcome (E α : Type) where
  /-- It returns. -/
  | returned (value : α)
  /-- Its process exits with a failure. -/
  | aborted (failure : E)
  /-- It never ends. -/
  | hung
  deriving DecidableEq

section Run

variable {P F E N α : Type} [DecidableEq P] [DecidableEq F]

/-- One process runs alone. -/
def run (p : P) : Prog F E N α → World P F N → Outcome E α × World P F N
  | .ret value, w => (.returned value, w)
  | .abort failure, w => (.aborted failure, w)
  | .hang, w => (.hung, w)
  | .op call rest, w => run p (rest (w.answer call)) (w.act p call)

/-- A sequence runs part by part. -/
theorem run_bind {β : Type} (p : P) (prog : Prog F E N α) (f : α → Prog F E N β)
    (w : World P F N) :
    run p (prog >>= f) w =
      match run p prog w with
      | (.returned value, w') => run p (f value) w'
      | (.aborted failure, w') => (.aborted failure, w')
      | (.hung, w') => (.hung, w') := by
  induction prog generalizing w with
  | ret value => rfl
  | abort failure => rfl
  | hang => rfl
  | op call rest step => exact step (w.answer call) (w.act p call)

/-- The world with an older log. -/
def World.after (w : World P F N) (log : List (P × N)) : World P F N :=
  { w with log := log ++ w.log }

/-- A run does not depend on the log. -/
theorem run_after (p : P) (prog : Prog F E N α) (w : World P F N) (log : List (P × N)) :
    run p prog (w.after log) = ((run p prog w).1, (run p prog w).2.after log) := by
  induction prog generalizing w with
  | ret value => rfl
  | abort failure => rfl
  | hang => rfl
  | op call rest step =>
    have acts : (w.after log).act p call = (w.act p call).after log := by
      cases call with
      | note mark => simp [World.act, World.after]
      | lock file mode range => rfl
      | unlock file range => rfl
      | size file => rfl
      | read file off len => rfl
      | write file off bytes => rfl
    have answers : (w.after log).answer call = w.answer call := by
      cases call <;> rfl
    simp only [run]
    rw [answers, acts]
    exact step (w.answer call) (w.act p call)

/-- The program never writes. -/
def Prog.Writeless : Prog F E N α → Prop
  | .ret _ => True
  | .abort _ => True
  | .hang => True
  | .op call rest =>
    (∀ file off bytes, call ≠ .write file off bytes) ∧ ∀ answer, (rest answer).Writeless

omit [DecidableEq P] [DecidableEq F] in
/-- A sequence never writes when its parts do not. -/
theorem Prog.Writeless.bind {β : Type} {prog : Prog F E N α} {f : α → Prog F E N β}
    (first : prog.Writeless) (second : ∀ value, (f value).Writeless) :
    (prog >>= f).Writeless := by
  induction prog with
  | ret value => exact second value
  | abort failure => trivial
  | hang => trivial
  | op call rest step => exact ⟨first.1, fun answer => step answer (first.2 answer)⟩

/-- A process of a pool. -/
inductive Proc (F E N α : Type) where
  /-- It has this program left to execute. -/
  | running (prog : Prog F E N α)
  /-- It exited with a failure. -/
  | exited

/-- A pool of processes over shared files. -/
structure Config (P F E N α : Type) where
  /-- What they share. -/
  world : World P F N
  /-- Where each process stands. -/
  procs : P → Proc F E N α

/-- One step of one process. -/
inductive Step : Config P F E N α → Config P F E N α → Prop where
  /-- A call that need not wait. -/
  | act {c : Config P F E N α} (p : P) {call : Op F N} {rest : call.Answer → Prog F E N α}
      (here : c.procs p = .running (.op call rest)) (enabled : c.world.Enabled p call) :
      Step c
        { world := c.world.act p call
          procs := Function.update c.procs p (.running (rest (c.world.answer call))) }
  /-- A failed process exits. -/
  | exit {c : Config P F E N α} (p : P) {failure : E}
      (here : c.procs p = .running (.abort failure)) :
      Step c { world := c.world.dropLocks p, procs := Function.update c.procs p .exited }

/-- The configurations of the runs from a configuration. -/
abbrev Reaches (c d : Config P F E N α) : Prop := Relation.ReflTransGen Step c d

/-- A process that exited stays so. -/
theorem exited_of_step {c d : Config P F E N α} {p : P} (step : Step c d)
    (gone : c.procs p = .exited) : d.procs p = .exited := by
  cases step with
  | act q here enabled =>
    have other : p ≠ q := by
      rintro rfl
      rw [gone] at here
      cases here
    simp only [Function.update_of_ne other, gone]
  | exit q here =>
    have other : p ≠ q := by
      rintro rfl
      rw [gone] at here
      cases here
    simp only [Function.update_of_ne other, gone]

end Run

end FileProgram

end CodeLearning
