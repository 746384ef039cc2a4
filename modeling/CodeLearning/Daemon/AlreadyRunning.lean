import CodeLearning.Lib.Decimal
import CodeLearning.Lib.Machine

/-!
# One instance of a daemon

`already_running` opens a file, locks it and writes its process number into it; a process that finds
the file locked returns 1. `lockfile` asks for a write lock on the whole file and does not wait. A
process may end at any time, and its lock goes with it. A failure of `lockfile` that is neither
`EACCES` nor `EAGAIN` is not caught: the process goes on without the lock.
-/

namespace CodeLearning.Daemon

open ByteFile Decimal

/-- How `lockfile` fails. -/
inductive Errno where
  /-- `EACCES`. -/
  | eacces
  /-- `EAGAIN`. -/
  | eagain
  /-- Another one. -/
  | other
deriving DecidableEq

/-- The next statement of a process. -/
inductive Pc where
  /-- `open`. -/
  | openFile
  /-- `lockfile`. -/
  | lockfile
  /-- `close`, after `lockfile` failed. -/
  | close
  /-- It has returned 1. -/
  | returnedOne
  /-- `ftruncate`. -/
  | ftruncate
  /-- `write`. -/
  | write
  /-- It has returned 0, and whether `write` wrote everything. -/
  | returnedZero (whole : Bool)
  /-- The process has ended, and whether it was past the lock. -/
  | ended (past : Bool)
deriving DecidableEq

/-- The process is past the lock and has not ended. -/
def Pc.past : Pc → Bool
  | .ftruncate => true
  | .write => true
  | .returnedZero _ => true
  | _ => false

/-- `lockfile` has failed. -/
def Pc.refused : Pc → Bool
  | .close => true
  | .returnedOne => true
  | _ => false

/-- The file and the processes. -/
structure State (P : Type) where
  /-- The content of the file. -/
  file : Bytes
  /-- The process whose write lock is on the file. -/
  lock : Option P
  /-- The next statement of each process. -/
  pc : P → Pc

/-- What happens next. -/
inductive Event (P : Type) where
  /-- `open`, which may fail. -/
  | openFile (p : P) (opened : Bool)
  /-- `lockfile`, which may fail. -/
  | lockfile (p : P) (failure : Option Errno)
  /-- `close`. -/
  | close (p : P)
  /-- `ftruncate`, which may fail. -/
  | ftruncate (p : P) (truncated : Bool)
  /-- `write`, and the number of bytes that it writes. -/
  | write (p : P) (written : Nat)
  /-- A process exits or is killed. -/
  | die (p : P)
deriving DecidableEq

/-- `lockfile` does not fail for another reason than a lock. -/
def Event.Ordinary {P : Type} : Event P → Prop
  | .lockfile _ (some .other) => False
  | _ => True

section Machine

variable {P : Type} [DecidableEq P]

/-- A process goes on to another statement. -/
def State.goTo (s : State P) (p : P) (pc : Pc) : State P :=
  { s with pc := fun q => if q = p then pc else s.pc q }

/-- The text that a process writes. -/
def pidText (pid : P → Nat) (p : P) : Bytes := decimal (pid p) ++ [0]

/-- A step of a process. -/
def step (pid : P → Nat) (s : State P) : Event P → Option (State P)
  | .openFile p opened =>
    if s.pc p = .openFile then some (s.goTo p (if opened then .lockfile else .ended false))
    else none
  | .lockfile p failure =>
    if s.pc p = .lockfile then
      match failure with
      | none => if s.lock = none then some { s.goTo p .ftruncate with lock := some p } else none
      | some .other => some (s.goTo p .ftruncate)
      | some _ => if s.lock = none then none else some (s.goTo p .close)
    else none
  | .close p => if s.pc p = .close then some (s.goTo p .returnedOne) else none
  | .ftruncate p truncated =>
    if s.pc p = .ftruncate then
      some { s.goTo p .write with file := if truncated then [] else s.file }
    else none
  | .write p written =>
    if s.pc p = .write then
      some { s.goTo p (.returnedZero ((pidText pid p).length ≤ written)) with
        file := writeAt s.file 0 ((pidText pid p).take written) }
    else none
  | .die p =>
    match s.pc p with
    | .ended _ => none
    | pc =>
      some { s.goTo p (.ended pc.past) with lock := if s.lock = some p then none else s.lock }

/-- No process has called `already_running`; the file has some content, or none. -/
def start (file : Bytes) : State P := ⟨file, none, fun _ => .openFile⟩

/-! ## What holds in every state -/

/-- The lock, the file and the processes agree. -/
structure Inv (pid : P → Nat) (s : State P) : Prop where
  /-- A process past the lock has it. -/
  owner : ∀ p, (s.pc p).past = true → s.lock = some p
  /-- The process that has the lock is past it. -/
  holder : ∀ p, s.lock = some p → (s.pc p).past = true
  /-- The file starts with what the process wrote. -/
  text : ∀ p, s.pc p = .returnedZero true → Holds s.file 0 (pidText pid p)
  /-- There was a lock when `lockfile` failed. -/
  refused : ∀ p, (s.pc p).refused = true → s.lock ≠ none ∨ ∃ q, s.pc q = .ended true

section Steps

variable {pid : P → Nat} {s s' : State P} {p q : P} {pc : Pc} {event : Event P}
  {events : List (Event P)} {file : Bytes}

omit [DecidableEq P] in
/-- It holds before the first call. -/
theorem start_inv : Inv pid (start file) where
  owner _ past := by cases past
  holder _ locked := by cases locked
  text _ returned := by cases returned
  refused _ refused := by cases refused

/-- The next statement of the process that went on. -/
@[simp]
theorem goTo_self : (s.goTo p pc).pc p = pc := if_pos rfl

/-- The next statements of the other processes. -/
theorem goTo_other (other : q ≠ p) : (s.goTo p pc).pc q = s.pc q := if_neg other

/-- A process that goes on, on its side of the lock, with a file that it may write. -/
theorem Inv.goTo (inv : Inv pid s) (before : s.pc p ≠ .ended true) (same : pc.past = (s.pc p).past)
    (refused : pc.refused = true → s.lock ≠ none ∨ ∃ q, s.pc q = .ended true)
    (wrote : pc = .returnedZero true → Holds file 0 (pidText pid p))
    (still : (s.pc p).past = false → file = s.file) :
    Inv pid { s.goTo p pc with file := file } := by
  have witness : ∀ q, s.pc q = .ended true → (s.goTo p pc).pc q = .ended true := by
    intro q gone
    rw [goTo_other, gone]
    rintro rfl
    exact before gone
  refine ⟨fun q past => ?_, fun q locked => ?_, fun q returned => ?_, fun q away => ?_⟩
  · by_cases here : q = p
    · subst here
      simp only [goTo_self] at past
      exact inv.owner q (same ▸ past)
    · simp only [goTo_other here] at past
      exact inv.owner q past
  · by_cases here : q = p
    · subst here
      simp only [goTo_self, same]
      exact inv.holder q locked
    · simp only [goTo_other here]
      exact inv.holder q locked
  · by_cases here : q = p
    · subst here
      simp only [goTo_self] at returned
      exact wrote returned
    · simp only [goTo_other here] at returned
      -- another process returned, so this one is not past the lock and left the file alone
      have locked := inv.owner q (by rw [returned]; rfl)
      have outside : (s.pc p).past = false := by
        by_contra inside
        have mine := inv.owner p (by simpa using inside)
        rw [locked, Option.some.injEq] at mine
        exact here mine
      rw [still outside]
      exact inv.text q returned
  · have old : s.lock ≠ none ∨ ∃ q, s.pc q = .ended true := by
      by_cases here : q = p
      · subst here
        simp only [goTo_self] at away
        exact refused away
      · simp only [goTo_other here] at away
        exact inv.refused q away
    exact old.imp_right fun ⟨r, gone⟩ => ⟨r, witness r gone⟩

/-- `lockfile` puts the lock on the file. -/
theorem Inv.locked (inv : Inv pid s) (free : s.lock = none) :
    Inv pid { s.goTo p .ftruncate with lock := some p } := by
  have outside : ∀ q, (s.pc q).past = false := by
    intro q
    by_contra inside
    have owned := inv.owner q (by simpa using inside)
    rw [free] at owned
    cases owned
  refine ⟨fun q past => ?_, fun q locked => ?_, fun q returned => ?_, fun q away => .inl (by simp)⟩
  · by_cases here : q = p
    · rw [here]
    · simp only [goTo_other here, outside] at past
      cases past
  · cases locked
    simp [Pc.past]
  · by_cases here : q = p
    · subst here
      simp at returned
    · simp only [goTo_other here] at returned
      have none_ := outside q
      rw [returned] at none_
      cases none_

/-- A process ends, and its lock with it. -/
theorem Inv.die (inv : Inv pid s) (alive : s.pc p ≠ .ended true) :
    Inv pid { s.goTo p (.ended (s.pc p).past) with
      lock := if s.lock = some p then none else s.lock } := by
  refine ⟨fun q past => ?_, fun q locked => ?_, fun q returned => ?_, fun q away => ?_⟩
  · by_cases here : q = p
    · subst here
      simp [Pc.past] at past
    · simp only [goTo_other here] at past
      have owned := inv.owner q past
      simp [owned, here]
  · by_cases mine : s.lock = some p
    · simp [mine] at locked
    · rw [if_neg mine] at locked
      have here : q ≠ p := by
        rintro rfl
        exact mine locked
      simp only [goTo_other here]
      exact inv.holder q locked
  · by_cases here : q = p
    · subst here
      simp at returned
    · simp only [goTo_other here] at returned
      exact inv.text q returned
  · have old : s.lock ≠ none ∨ ∃ q, s.pc q = .ended true := by
      by_cases here : q = p
      · subst here
        simp [Pc.refused] at away
      · simp only [goTo_other here] at away
        exact inv.refused q away
    by_cases mine : s.lock = some p
    · exact .inr ⟨p, by simp [inv.holder p mine]⟩
    · rcases old with locked | ⟨r, gone⟩
      · exact .inl (by simpa [mine] using locked)
      · refine .inr ⟨r, ?_⟩
        rw [goTo_other]
        · exact gone
        · rintro rfl
          exact alive gone

/-- Every step keeps it, if `lockfile` fails for a lock only. -/
theorem Inv.step (inv : Inv pid s) (ordinary : event.Ordinary)
    (stepped : Daemon.step pid s event = some s') : Inv pid s' := by
  cases event with
  | openFile p opened =>
    simp only [Daemon.step] at stepped
    split at stepped
    · rename_i here
      cases stepped
      exact inv.goTo (by simp [here]) (by cases opened <;> simp [here, Pc.past])
        (by cases opened <;> simp [Pc.refused]) (by cases opened <;> simp) fun _ => rfl
    · cases stepped
  | lockfile p failure =>
    simp only [Daemon.step] at stepped
    split at stepped
    · rename_i here
      have refusing : ∀ locked : s.lock ≠ none, Inv pid (s.goTo p .close) := fun locked =>
        inv.goTo (by simp [here]) (by simp [here, Pc.past]) (fun _ => .inl locked) (by simp)
          fun _ => rfl
      cases failure with
      | none =>
        by_cases free : s.lock = none
        · simp only [free, if_true, Option.some.injEq] at stepped
          subst stepped
          exact inv.locked free
        · simp [free] at stepped
      | some errno =>
        cases errno with
        | other => exact absurd ordinary id
        | eacces =>
          by_cases free : s.lock = none
          · simp [free] at stepped
          · simp only [free, if_false, Option.some.injEq] at stepped
            subst stepped
            exact refusing free
        | eagain =>
          by_cases free : s.lock = none
          · simp [free] at stepped
          · simp only [free, if_false, Option.some.injEq] at stepped
            subst stepped
            exact refusing free
    · cases stepped
  | close p =>
    simp only [Daemon.step] at stepped
    split at stepped
    · rename_i here
      cases stepped
      exact inv.goTo (by simp [here]) (by simp [here, Pc.past])
        (fun _ => inv.refused p (by simp [here, Pc.refused])) (by simp) fun _ => rfl
    · cases stepped
  | ftruncate p truncated =>
    simp only [Daemon.step] at stepped
    split at stepped
    · rename_i here
      cases stepped
      exact inv.goTo (by simp [here]) (by simp [here, Pc.past]) (by simp [Pc.refused]) (by simp)
        (by simp [here, Pc.past])
    · cases stepped
  | write p written =>
    simp only [Daemon.step] at stepped
    split at stepped
    · rename_i here
      cases stepped
      refine inv.goTo (by simp [here]) (by simp [here, Pc.past]) (by simp [Pc.refused])
        (fun whole => ?_) (by simp [here, Pc.past])
      simp only [Pc.returnedZero.injEq, decide_eq_true_eq] at whole
      rw [List.take_of_length_le whole]
      exact holds_writeAt s.file 0 (pidText pid p)
    · cases stepped
  | die p =>
    simp only [Daemon.step] at stepped
    split at stepped
    · cases stepped
    · rename_i alive
      cases stepped
      exact inv.die (alive true)

/-- A number that is terminated is read back, whatever follows. -/
theorem atol_terminated (n : Nat) (rest : Bytes) : atol (decimal n ++ 0 :: rest) = n := by
  have value := digitsValue_decimal n
  have whole : digitsValue (decimal n ++ 0 :: rest) = n := by
    have digits : (decimal n ++ 0 :: rest).takeWhile isDigit = decimal n := by
      rw [List.takeWhile_append_of_pos fun c mem => isDigit_of_mem_decimal mem,
        List.takeWhile_cons_of_neg (by decide), List.append_nil]
    rw [digitsValue, digits, foldl_decimal]
  cases text : decimal n with
  | nil => exact absurd text (decimal_ne_nil n)
  | cons c digits =>
    have digit : isDigit c = true := isDigit_of_mem_decimal (text ▸ List.mem_cons_self)
    have noSpace : isSpace c = false := by
      by_contra space
      rw [Bool.not_eq_false, isSpace, Bool.or_eq_true, beq_iff_eq] at space
      rcases space with rfl | control
      · cases digit
      · simp only [isDigit, Bool.and_eq_true, decide_eq_true_eq, UInt8.le_iff_toNat_le]
          at digit control
        exact absurd (Nat.le_trans digit.1 control.2) (by decide)
    have noMinus : c ≠ 45 := by
      rintro rfl
      cases digit
    have noPlus : c ≠ 43 := by
      rintro rfl
      cases digit
    rw [text, List.cons_append] at whole
    rw [atol, List.cons_append, List.dropWhile_cons_of_neg (by simp [noSpace])]
    simp only [noMinus, noPlus, if_false, whole]

/-- What a run of the processes guarantees in the state that it reaches. -/
structure Single (pid : P → Nat) (s : State P) : Prop where
  /-- At most one process is past the lock. -/
  one : ∀ p q, (s.pc p).past = true → (s.pc q).past = true → p = q
  /-- While a process that has returned 0 lives, the file has its number, if it could be
  written. -/
  recorded : ∀ p, s.pc p = .returnedZero true → atol s.file = pid p
  /-- A process is turned away only when another one is past the lock, or has ended past it. -/
  refused : ∀ p, (s.pc p).refused = true →
    (∃ q, (s.pc q).past = true) ∨ ∃ q, s.pc q = .ended true

/-- Any number of processes that call `already_running` in any interleaving, of which any may end
at any time and any call may fail, but `lockfile` for a lock only: one process at most has returned
0 and not ended, and the file has its number. -/
theorem single_instance (ordinary : ∀ event ∈ events, event.Ordinary)
    (ran : Machine.run (Daemon.step pid) (start file) events = some s) : Single pid s := by
  have inv : Inv pid s :=
    Machine.run_keeps_of (fun _ _ _ inv ordinary stepped => inv.step ordinary stepped) start_inv
      ordinary ran
  refine ⟨fun p q first second => ?_, fun p returned => ?_, fun p refused => ?_⟩
  · have owner := inv.owner p first
    rw [inv.owner q second, Option.some.injEq] at owner
    exact owner.symm
  · have text := (inv.text p returned).readAt_eq
    rw [readAt, List.drop_zero] at text
    rw [← List.take_append_drop (pidText pid p).length s.file, text, pidText, List.append_assoc]
    exact atol_terminated _ _
  · rcases inv.refused p refused with locked | gone
    · obtain ⟨q, owner⟩ := Option.ne_none_iff_exists'.mp locked
      exact .inl ⟨q, inv.holder q owner⟩
    · exact .inr gone

/-- Process 7 finds the file locked by process 12, whose `ftruncate` fails on a longer text. -/
def twoStart : List (Event Bool) :=
  [.openFile false true, .openFile true true, .lockfile false none, .lockfile true (some .eagain),
    .ftruncate false false, .close true, .write false 3]

/-- After that run the file has the number 12. -/
theorem single_instance_two : ∃ s, Machine.run (Daemon.step fun p => if p then 7 else 12)
    (start (decimal 34567 ++ [0])) twoStart = some s ∧ s.file = decimal 12 ++ 0 :: [54, 55, 0] ∧
      Single (fun p => if p then 7 else 12) s := by
  have ends : (Machine.run (Daemon.step fun p => if p then 7 else 12)
      (start (decimal 34567 ++ [0])) twoStart).isSome = true := by decide +kernel
  obtain ⟨s, ran⟩ := Option.isSome_iff_exists.mp ends
  refine ⟨s, ran, ?_, single_instance (by simp [twoStart, Event.Ordinary]) ran⟩
  have file : (Machine.run (Daemon.step fun p => if p then 7 else 12)
      (start (decimal 34567 ++ [0])) twoStart).map State.file =
        some (decimal 12 ++ 0 :: [54, 55, 0]) := by decide +kernel
  rw [ran, Option.map_some, Option.some.injEq] at file
  exact file

end Steps

end Machine

end CodeLearning.Daemon
