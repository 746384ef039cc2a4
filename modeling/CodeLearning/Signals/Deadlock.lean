import CodeLearning.Lib.Machine

/-!
# Two processes that deadlock

In `deadlock.c` the parent and the child lock one byte each, tell each other so, and ask for the
byte of the other. They tell each other with the signals of `sigsuspend3.c`, which are blocked from
before `fork` until a process has been told; `sigsuspend` lets them in and waits. The kernel refuses
a lock that would close a circle of waiting processes. The steps of the processes interleave in any
order.
-/

namespace CodeLearning.Signals

/-- The two processes, and the byte that each of them locks first. -/
inductive Role where
  /-- The parent. -/
  | parent
  /-- The child. -/
  | child
deriving DecidableEq

/-- The other process. -/
def Role.other : Role → Role
  | .parent => .child
  | .child => .parent

/-- The next statement of a process. -/
inductive Pc where
  /-- `writew_lock` on its own byte. -/
  | lockFirst
  /-- `kill`, in `TELL_PARENT` or `TELL_CHILD`. -/
  | tell
  /-- The test of the loop in `WAIT_PARENT` or `WAIT_CHILD`. -/
  | test
  /-- `sigsuspend`. -/
  | suspend
  /-- `sigflag = 0`. -/
  | clear
  /-- `sigprocmask`. -/
  | unmask
  /-- `writew_lock` on the byte of the other. -/
  | lockSecond
  /-- Waiting in that `writew_lock`. -/
  | blocked
  /-- `exit(0)`. -/
  | finish
  /-- `err_sys`, since `writew_lock` returned `EDEADLK`. -/
  | fail
  /-- After `exit(0)`. -/
  | exited
  /-- After `err_sys`. -/
  | failed
deriving DecidableEq

/-- The signals are blocked. -/
@[simp]
def Pc.masked : Pc → Bool
  | .lockFirst => true
  | .tell => true
  | .test => true
  | .suspend => true
  | .clear => true
  | .unmask => true
  | _ => false

/-- A process with its variable and its signals. -/
structure Proc where
  /-- The next statement. -/
  pc : Pc
  /-- `sigflag`. -/
  sigflag : Bool
  /-- A signal is pending. -/
  pending : Bool
deriving DecidableEq

/-- The processes and the owners of the bytes. -/
structure State where
  /-- The processes. -/
  proc : Role → Proc
  /-- The owner of the byte that a process locks first. -/
  lock : Role → Option Role

/-- After `tell_wait` and `fork`. -/
def start : State := ⟨fun _ => ⟨.lockFirst, false, false⟩, fun _ => none⟩

/-- The state with another process in the place of one. -/
def State.put (s : State) (r : Role) (p : Proc) : State :=
  { s with proc := fun q => if q = r then p else s.proc q }

/-- `writew_lock` gives a byte to a process. -/
def State.give (s : State) (byte r : Role) : State :=
  { s with lock := fun b => if b = byte then some r else s.lock b }

/-- What is left of a lock when a process exits. -/
def left (r : Role) (owner : Option Role) : Option Role := if owner = some r then none else owner

/-- The locks of a process that exits are gone. -/
def State.release (s : State) (r : Role) : State := { s with lock := fun b => left r (s.lock b) }

/-- What `kill` does to the process that it is sent to: the signal stays pending while it is
blocked; otherwise the handler runs. -/
@[simp]
def Proc.signal (p : Proc) : Proc :=
  if p.pc.masked then { p with pending := true } else { p with sigflag := true }

/-- The handler runs if a signal is pending. -/
@[simp]
def Proc.deliver (p : Proc) : Proc :=
  if p.pending then { p with sigflag := true, pending := false } else p

/-- A step of a process; `none` when it waits or has ended. -/
def step (s : State) (r : Role) : Option State :=
  let p := s.proc r
  match p.pc with
  | .lockFirst =>
    if s.lock r = none then some ((s.put r { p with pc := .tell }).give r r) else none
  | .tell =>
    some ((s.put r { p with pc := .test }).put r.other (s.proc r.other).signal)
  | .test => some (s.put r { p with pc := if p.sigflag then .clear else .suspend })
  | .suspend => if p.pending then some (s.put r { p.deliver with pc := .test }) else none
  | .clear => some (s.put r { p with pc := .unmask, sigflag := false })
  | .unmask => some (s.put r { p.deliver with pc := .lockSecond })
  | .lockSecond =>
    if s.lock r.other = none then some ((s.put r { p with pc := .finish }).give r.other r)
    else if (s.proc r.other).pc = .blocked ∧ s.lock r = some r then
      some (s.put r { p with pc := .fail })
    else some (s.put r { p with pc := .blocked })
  | .blocked =>
    if s.lock r.other = none then some ((s.put r { p with pc := .finish }).give r.other r)
    else none
  | .finish => some ((s.put r { p with pc := .exited }).release r)
  | .fail => some ((s.put r { p with pc := .failed }).release r)
  | .exited => none
  | .failed => none

/-! ## What holds in every state -/

/-- The process has told the other. -/
@[simp]
def Pc.told : Pc → Bool
  | .lockFirst => false
  | .tell => false
  | _ => true

/-- The signals of a process that was told, or not: the only one is pending until `sigsuspend` lets
it in, and `sigflag` is set from there until it is cleared. -/
@[simp]
def Proc.Flags (p : Proc) (told : Bool) : Prop :=
  match p.pc with
  | .lockFirst => p.sigflag = false ∧ p.pending = told
  | .tell => p.sigflag = false ∧ p.pending = told
  | .test => (p.sigflag || p.pending) = told ∧ (p.sigflag && p.pending) = false
  | .suspend => p.sigflag = false ∧ p.pending = told
  | .clear => p.sigflag = true ∧ p.pending = false ∧ told = true
  | _ => p.sigflag = false ∧ p.pending = false ∧ told = true

/-- Who has the byte that a process locks first, with this next statement of the process and that
of the other. -/
@[simp]
def holder (r : Role) : Pc → Pc → Option Role
  | .lockFirst, _ => none
  | .exited, _ => none
  | .failed, .finish => some r.other
  | .failed, _ => none
  | _, _ => some r

/-- Where the other process is when one is near its end: one of them only is refused its second
lock, and the other one goes on after that. -/
@[simp]
def Fits : Pc → Pc → Prop
  | .blocked, other => other ≠ .blocked
  | .fail, other => other = .blocked
  | .finish, other => other = .failed
  | .exited, other => other = .failed
  | .failed, other => other = .blocked ∨ other = .finish ∨ other = .exited
  | _, _ => True

/-- What holds of a process and the other one, and of the bytes that they lock first. -/
structure Pair (r : Role) (p q : Proc) (mine other : Option Role) : Prop where
  /-- The signals of the process. -/
  flags : p.Flags q.pc.told
  /-- The signals of the other. -/
  otherFlags : q.Flags p.pc.told
  /-- The byte of the process. -/
  held : mine = holder r p.pc q.pc
  /-- The byte of the other. -/
  otherHeld : other = holder r.other q.pc p.pc
  /-- Where the other is. -/
  fits : Fits p.pc q.pc
  /-- Where the process is. -/
  otherFits : Fits q.pc p.pc

/-- What holds of both processes. -/
def Inv (s : State) (r : Role) : Prop :=
  Pair r (s.proc r) (s.proc r.other) (s.lock r) (s.lock r.other)

section Steps

variable {s s' : State} {r : Role} {p q : Proc} {mine theirs : Option Role}

/-- The other of the other. -/
@[simp]
theorem other_other (r : Role) : r.other.other = r := by cases r <;> rfl

/-- There are two processes. -/
@[simp]
theorem other_ne (r : Role) : r.other ≠ r := by cases r <;> decide

/-- There are two processes. -/
@[simp]
theorem ne_other (r : Role) : r ≠ r.other := by cases r <;> decide

/-- It is the same for the other process. -/
theorem Pair.symm (pair : Pair r p q mine theirs) : Pair r.other q p theirs mine :=
  ⟨pair.otherFlags, pair.flags, pair.otherHeld, by rw [other_other]; exact pair.held,
    pair.otherFits, pair.fits⟩

/-- Either process can be looked at. -/
theorem Inv.other (inv : Inv s r) : Inv s r.other := by
  have pair := Pair.symm inv
  unfold Inv
  rw [other_other]
  exact pair

/-- It holds after `fork`. -/
theorem start_inv (r : Role) : Inv start r := by
  refine ⟨⟨rfl, rfl⟩, ⟨rfl, rfl⟩, rfl, rfl, trivial, trivial⟩

/-- The process has not got an answer to its second `writew_lock` yet. -/
@[simp]
def Pc.early : Pc → Bool
  | .lockFirst => true
  | .tell => true
  | .test => true
  | .suspend => true
  | .clear => true
  | .unmask => true
  | .lockSecond => true
  | _ => false

/-- An early process does not mind where the other is. -/
theorem fits_early {pc other : Pc} (early : pc.early = true) : Fits pc other := by
  cases pc with
  | blocked | finish | fail | exited | failed => cases early
  | _ => trivial

/-- Beside an early process the other one is early too, or waits. -/
theorem early_of_fits {pc other : Pc} (early : pc.early = true) (fits : Fits other pc) :
    other.early = true ∨ other = .blocked := by
  cases other with
  | blocked => exact .inr rfl
  | finish | fail | exited =>
    have place : pc = _ := fits
    rw [place] at early
    cases early
  | failed =>
    rcases fits with place | place | place <;> rw [place] at early <;> cases early
  | _ => exact .inl rfl

/-- The other one fits when an early process goes on to an early statement. -/
theorem Fits.early {pc pc' other : Pc} (fits : Fits other pc) (early : pc.early = true)
    (early' : pc'.early = true) : Fits other pc' := by
  rcases early_of_fits early fits with otherEarly | rfl
  · exact fits_early otherEarly
  · intro waits
    rw [waits] at early'
    cases early'

/-- A byte passes to the other process only when that one finishes. -/
theorem holder_congr {pc pc' other : Pc} (goes : pc ≠ .finish) (goes' : pc' ≠ .finish) :
    holder r other pc = holder r other pc' := by
  have failed : ∀ pc : Pc, pc ≠ .finish → holder r .failed pc = none := by
    intro pc goes
    cases pc with
    | finish => exact absurd rfl goes
    | _ => rfl
  cases other with
  | failed => rw [failed pc goes, failed pc' goes']
  | _ => rfl

/-- An early process is not at its end. -/
theorem ne_finish {pc : Pc} (early : pc.early = true) : pc ≠ .finish := by
  rintro rfl
  cases early

/-- A process goes on from one early statement to another, which changes its own part only. -/
theorem Pair.goes {pc pc' : Pc} {f g f' g' : Bool} {mine' : Option Role}
    (pair : Pair r ⟨pc, f, g⟩ q mine theirs) (early : pc.early = true) (early' : pc'.early = true)
    (told : pc'.told = pc.told)
    (flags : Proc.Flags ⟨pc, f, g⟩ q.pc.told → Proc.Flags ⟨pc', f', g'⟩ q.pc.told)
    (held : mine' = holder r pc' q.pc) : Pair r ⟨pc', f', g'⟩ q mine' theirs where
  flags := flags pair.flags
  otherFlags := told ▸ pair.otherFlags
  held := held
  otherHeld := pair.otherHeld.trans (holder_congr (ne_finish early) (ne_finish early'))
  fits := fits_early early'
  otherFits := pair.otherFits.early early early'

/-- `writew_lock` on the own byte. -/
theorem Pair.lockFirst {f g : Bool} (pair : Pair r ⟨.lockFirst, f, g⟩ q mine theirs) :
    Pair r ⟨.tell, f, g⟩ q (some r) theirs := pair.goes rfl rfl rfl id rfl

/-- The signal to a process that was not told before stays pending. -/
theorem Proc.Flags.signal (flags : q.Flags false) : q.signal.pc = q.pc ∧ q.signal.Flags true := by
  cases q with
  | mk pc f g =>
    cases pc with
    | lockFirst | tell | suspend =>
      obtain ⟨rfl, -⟩ := flags
      exact ⟨rfl, rfl, rfl⟩
    | test =>
      obtain ⟨rfl, rfl⟩ := Bool.or_eq_false_iff.mp flags.1
      exact ⟨rfl, rfl, rfl⟩
    | _ => cases flags.2.2

/-- `kill`. -/
theorem Pair.tell {f g : Bool} (pair : Pair r ⟨.tell, f, g⟩ q mine theirs) :
    Pair r ⟨.test, f, g⟩ q.signal mine theirs := by
  obtain ⟨place, told⟩ := pair.otherFlags.signal
  obtain ⟨rfl, pending⟩ := pair.flags
  constructor
  · rw [place]
    exact ⟨pending, rfl⟩
  · exact told
  · exact pair.held
  · rw [place]
    exact pair.otherHeld.trans (holder_congr nofun nofun)
  · trivial
  · rw [place]
    exact pair.otherFits.early rfl rfl

/-- The test of the loop. -/
theorem Pair.test {f g : Bool} (pair : Pair r ⟨.test, f, g⟩ q mine theirs) :
    Pair r ⟨if f then .clear else .suspend, f, g⟩ q mine theirs := by
  cases f with
  | true => exact pair.goes rfl rfl rfl (fun flags => ⟨rfl, flags.2, flags.1.symm⟩) pair.held
  | false => exact pair.goes rfl rfl rfl (fun flags => ⟨rfl, flags.1⟩) pair.held

/-- `sigsuspend` returns. -/
theorem Pair.suspend {f : Bool} (pair : Pair r ⟨.suspend, f, true⟩ q mine theirs) :
    Pair r ⟨.test, true, false⟩ q mine theirs :=
  pair.goes rfl rfl rfl (fun flags => ⟨flags.2, rfl⟩) pair.held

/-- `sigflag = 0`. -/
theorem Pair.clear {f g : Bool} (pair : Pair r ⟨.clear, f, g⟩ q mine theirs) :
    Pair r ⟨.unmask, false, g⟩ q mine theirs :=
  pair.goes rfl rfl rfl (fun flags => ⟨rfl, flags.2⟩) pair.held

/-- No signal is left for `sigprocmask`. -/
theorem Pair.none_left {f g : Bool} (pair : Pair r ⟨.unmask, f, g⟩ q mine theirs) : g = false :=
  pair.flags.2.1

/-- `sigprocmask`. -/
theorem Pair.unmask {f g : Bool} (pair : Pair r ⟨.unmask, f, g⟩ q mine theirs) :
    Pair r ⟨.lockSecond, f, g⟩ q mine theirs := pair.goes rfl rfl rfl id pair.held

/-- A process that asks for its second byte has its first one, and so has the other, until it has
failed. -/
theorem Pair.together (pair : Pair r p q mine theirs)
    (asks : p.pc = .lockSecond ∨ p.pc = .blocked) :
    mine = some r ∧ (theirs = some r.other ∨ q.pc = .failed) := by
  have told : p.Flags q.pc.told → q.pc.told = true := by
    cases p with
    | mk pc => rcases asks with rfl | rfl <;> exact fun flags => flags.2.2
  have mineHeld : mine = some r := by
    rw [pair.held]
    rcases asks with here | here <;> rw [here] <;> rfl
  refine ⟨mineHeld, ?_⟩
  have otherHeld := pair.otherHeld
  cases there : q.pc with
  | lockFirst =>
    -- The process has been told.
    have wasTold := told pair.flags
    rw [there] at wasTold
    cases wasTold
  | exited =>
    -- The other one exits only after the process has failed.
    have failed := pair.otherFits
    rw [there] at failed
    rcases asks with here | here <;> cases here.symm.trans failed
  | failed => exact .inr rfl
  | _ => exact .inl (by rw [otherHeld, there]; rfl)

/-- `writew_lock` gives the byte of the other, who has failed. -/
theorem Pair.given {f g : Bool} {pc : Pc} (pair : Pair r ⟨pc, f, g⟩ q mine none)
    (asks : pc = .lockSecond ∨ pc = .blocked) : Pair r ⟨.finish, f, g⟩ q mine (some r) := by
  obtain ⟨mineHeld, free⟩ := pair.together asks
  have failed : q.pc = .failed := free.resolve_left nofun
  have flags : Proc.Flags ⟨.finish, f, g⟩ q.pc.told := by
    rcases asks with rfl | rfl <;> exact pair.flags
  have otherFlags : q.Flags Pc.finish.told := by
    rcases asks with rfl | rfl <;> exact pair.otherFlags
  refine ⟨flags, otherFlags, mineHeld, ?_, failed, ?_⟩
  · rw [failed]
    exact congrArg some (other_other r).symm
  · rw [failed]
    exact .inr (.inl rfl)

/-- `writew_lock` refuses the byte of the other, who waits. -/
theorem Pair.refused {f g : Bool} (pair : Pair r ⟨.lockSecond, f, g⟩ q mine theirs)
    (waits : q.pc = .blocked) : Pair r ⟨.fail, f, g⟩ q mine theirs := by
  refine ⟨pair.flags, pair.otherFlags, pair.held, ?_, waits, ?_⟩
  · exact pair.otherHeld.trans (holder_congr nofun nofun)
  · rw [waits]
    exact nofun

/-- `writew_lock` waits for the byte of the other, who does not wait. -/
theorem Pair.waits {f g : Bool} (pair : Pair r ⟨.lockSecond, f, g⟩ q mine theirs)
    (goes : ¬ (q.pc = .blocked ∧ mine = some r)) : Pair r ⟨.blocked, f, g⟩ q mine theirs := by
  have running : q.pc ≠ .blocked := fun waits => goes ⟨waits, pair.held⟩
  have early : q.pc.early = true := (early_of_fits rfl pair.otherFits).resolve_right running
  refine ⟨pair.flags, pair.otherFlags, pair.held, ?_, running, fits_early early⟩
  exact pair.otherHeld.trans (holder_congr nofun nofun)

/-- `exit(0)`. -/
theorem Pair.finish {f g : Bool} (pair : Pair r ⟨.finish, f, g⟩ q mine theirs) :
    Pair r ⟨.exited, f, g⟩ q (left r mine) (left r theirs) := by
  have failed : q.pc = .failed := pair.fits
  have mineHeld : mine = some r := pair.held
  have theirsHeld : theirs = some r := by
    rw [pair.otherHeld, failed]
    exact congrArg some (other_other r)
  refine ⟨pair.flags, pair.otherFlags, ?_, ?_, failed, ?_⟩
  · rw [mineHeld, left, if_pos rfl]
    rfl
  · rw [theirsHeld, left, if_pos rfl, failed]
    rfl
  · rw [failed]
    exact .inr (.inr rfl)

/-- `err_sys`. -/
theorem Pair.fail {f g : Bool} (pair : Pair r ⟨.fail, f, g⟩ q mine theirs) :
    Pair r ⟨.failed, f, g⟩ q (left r mine) (left r theirs) := by
  have waits : q.pc = .blocked := pair.fits
  have mineHeld : mine = some r := pair.held
  have theirsHeld : theirs = some r.other := by
    rw [pair.otherHeld, waits]
    rfl
  refine ⟨pair.flags, pair.otherFlags, ?_, ?_, .inl waits, ?_⟩
  · rw [mineHeld, left, if_pos rfl, waits]
    rfl
  · rw [theirsHeld, left, if_neg fun same => other_ne r (Option.some.inj same), waits]
    rfl
  · rw [waits]
    exact nofun

/-- A process that goes on alone. -/
theorem inv_put (pair : Pair r p (s.proc r.other) (s.lock r) (s.lock r.other)) :
    Inv (s.put r p) r := by
  simpa [Inv, State.put] using pair

/-- A process that goes on with a byte. -/
theorem inv_give (pair : Pair r p (s.proc r.other) (s.lock r) (some r)) :
    Inv ((s.put r p).give r.other r) r := by
  simpa [Inv, State.put, State.give] using pair

/-- A process that exits. -/
theorem inv_release
    (pair : Pair r p (s.proc r.other) (left r (s.lock r)) (left r (s.lock r.other))) :
    Inv ((s.put r p).release r) r := by
  simpa [Inv, State.put, State.release] using pair

/-- Every step keeps it. -/
theorem Inv.step (inv : Inv s r) (stepped : Signals.step s r = some s') : Inv s' r := by
  cases isP : s.proc r with
  | mk pc sigflag pending =>
    unfold Inv at inv
    rw [isP] at inv
    unfold Signals.step at stepped
    cases pc with
    | lockFirst =>
      have free : s.lock r = none := inv.held
      simp only [isP, free, if_true, Option.some.injEq] at stepped
      subst stepped
      simpa [Inv, State.put, State.give] using inv.lockFirst
    | tell =>
      simp only [isP, Option.some.injEq] at stepped
      subst stepped
      simpa [Inv, State.put] using inv.tell
    | test =>
      simp only [isP, Option.some.injEq] at stepped
      exact stepped ▸ inv_put inv.test
    | suspend =>
      cases pending with
      | false => simp [isP] at stepped
      | true =>
        simp only [isP, if_true, Option.some.injEq] at stepped
        exact stepped ▸ inv_put inv.suspend
    | clear =>
      simp only [isP, Option.some.injEq] at stepped
      exact stepped ▸ inv_put inv.clear
    | unmask =>
      have none_ := inv.none_left
      subst none_
      simp only [isP, Proc.deliver, Bool.false_eq_true, if_false, Option.some.injEq] at stepped
      exact stepped ▸ inv_put inv.unmask
    | lockSecond =>
      simp only [isP] at stepped
      split at stepped
      · rename_i free
        rw [free] at inv
        cases stepped
        exact inv_give (inv.given (.inl rfl))
      · rename_i taken
        split at stepped
        · rename_i waits
          cases stepped
          exact inv_put (inv.refused waits.1)
        · rename_i goes
          cases stepped
          exact inv_put (inv.waits goes)
    | blocked =>
      simp only [isP] at stepped
      split at stepped
      · rename_i free
        rw [free] at inv
        cases stepped
        exact inv_give (inv.given (.inr rfl))
      · cases stepped
    | finish =>
      simp only [isP, Option.some.injEq] at stepped
      exact stepped ▸ inv_release inv.finish
    | fail =>
      simp only [isP, Option.some.injEq] at stepped
      exact stepped ▸ inv_release inv.fail
    | exited => simp [isP] at stepped
    | failed => simp [isP] at stepped

/-- What holds of both processes, from either. -/
theorem Inv.both {r' : Role} (inv : Inv s r) : Inv s r' := by
  cases r <;> cases r' <;> first | exact inv | exact inv.other

/-! ## How the processes end -/

/-- How many statements are before a process. -/
def Proc.weight (p : Proc) : Nat :=
  match p.pc with
  | .lockFirst => 11
  | .tell => 10
  | .test => if p.sigflag then 7 else 9
  | .suspend => 8
  | .clear => 6
  | .unmask => 5
  | .lockSecond => 4
  | .blocked => 3
  | .finish => 1
  | .fail => 1
  | .exited => 0
  | .failed => 0

/-- How many steps the processes can take. -/
def weight (s : State) : Nat := (s.proc .parent).weight + (s.proc .child).weight

/-- The weight of both, from either. -/
theorem weight_eq (s : State) (r : Role) :
    weight s = (s.proc r).weight + (s.proc r.other).weight := by
  cases r
  · rfl
  · exact Nat.add_comm _ _

/-- A process goes on alone. -/
theorem weight_put (less : p.weight < (s.proc r).weight) : weight (s.put r p) < weight s := by
  rw [weight_eq _ r, weight_eq s r]
  simpa [State.put] using less

/-- A signal does not bring the process that it is sent to forward. -/
theorem weight_signal (p : Proc) : p.signal.weight = p.weight := by
  cases p with
  | mk pc => cases pc <;> rfl

/-- Every step makes the weight smaller. -/
theorem weight_step (stepped : Signals.step s r = some s') : weight s' < weight s := by
  cases isP : s.proc r with
  | mk pc sigflag pending =>
    have less : ∀ p : Proc, p.weight < (Proc.mk pc sigflag pending).weight →
        weight (s.put r p) < weight s := fun p small => weight_put (isP ▸ small)
    unfold Signals.step at stepped
    cases pc with
    | lockFirst =>
      simp only [isP] at stepped
      split at stepped
      · cases stepped
        exact less _ (show 10 < 11 by decide)
      · cases stepped
    | tell =>
      simp only [isP, Option.some.injEq] at stepped
      subst stepped
      rw [weight_eq _ r, weight_eq s r]
      have self : (Proc.mk .test sigflag pending).weight < (s.proc r).weight := by
        rw [isP]
        cases sigflag
        · exact (show 9 < 10 by decide)
        · exact (show 7 < 10 by decide)
      have same := weight_signal (s.proc r.other)
      simp only [State.put, if_true, if_neg (ne_other r)]
      omega
    | test =>
      simp only [isP, Option.some.injEq] at stepped
      subst stepped
      cases sigflag
      · exact less _ (show 8 < 9 by decide)
      · exact less _ (show 6 < 7 by decide)
    | suspend =>
      cases pending with
      | false => simp [isP] at stepped
      | true =>
        simp only [isP, if_true, Option.some.injEq] at stepped
        subst stepped
        exact less _ (show 7 < 8 by decide)
    | clear =>
      simp only [isP, Option.some.injEq] at stepped
      exact stepped ▸ less _ (show 5 < 6 by decide)
    | unmask =>
      simp only [isP, Option.some.injEq] at stepped
      exact stepped ▸ less _ (show 4 < 5 by decide)
    | lockSecond =>
      simp only [isP] at stepped
      split at stepped
      · cases stepped
        exact less _ (show 1 < 4 by decide)
      · split at stepped
        · cases stepped
          exact less _ (show 1 < 4 by decide)
        · cases stepped
          exact less _ (show 3 < 4 by decide)
    | blocked =>
      simp only [isP] at stepped
      split at stepped
      · cases stepped
        exact less _ (show 1 < 3 by decide)
      · cases stepped
    | finish =>
      simp only [isP, Option.some.injEq] at stepped
      exact stepped ▸ less ⟨.exited, sigflag, pending⟩ (show 0 < 1 by decide)
    | fail =>
      simp only [isP, Option.some.injEq] at stepped
      exact stepped ▸ less ⟨.failed, sigflag, pending⟩ (show 0 < 1 by decide)
    | exited => simp [isP] at stepped
    | failed => simp [isP] at stepped

/-- Why a process cannot go on. -/
inductive Halted (p : Proc) (mine theirs : Option Role) : Prop where
  /-- Its first byte is taken. -/
  | lockFirst (here : p.pc = .lockFirst) (taken : mine ≠ none)
  /-- It has not been told. -/
  | suspend (here : p.pc = .suspend) (quiet : p.pending = false)
  /-- Its second byte is taken. -/
  | blocked (here : p.pc = .blocked) (taken : theirs ≠ none)
  /-- It has exited. -/
  | exited (here : p.pc = .exited)
  /-- It has failed. -/
  | failed (here : p.pc = .failed)

/-- A process that cannot go on has a reason. -/
theorem halted_of_step (stuck : Signals.step s r = none) :
    Halted (s.proc r) (s.lock r) (s.lock r.other) := by
  cases isP : s.proc r with
  | mk pc sigflag pending =>
    unfold Signals.step at stuck
    cases pc with
    | lockFirst => exact .lockFirst rfl fun free => by simp [isP, free] at stuck
    | tell => simp [isP] at stuck
    | test => simp [isP] at stuck
    | suspend => exact .suspend rfl (by simpa [isP] using stuck)
    | clear => simp [isP] at stuck
    | unmask => simp [isP] at stuck
    | lockSecond =>
      simp only [isP] at stuck
      split at stuck
      · cases stuck
      · split at stuck <;> cases stuck
    | blocked => exact .blocked rfl fun free => by simp [isP, free] at stuck
    | finish => simp [isP] at stuck
    | fail => simp [isP] at stuck
    | exited => exact .exited rfl
    | failed => exact .failed rfl

/-- A process that cannot go on has told the other one. -/
theorem Pair.told (pair : Pair r p q mine theirs) (halted : Halted p mine theirs) :
    p.pc.told = true := by
  cases halted with
  | lockFirst here taken =>
    have held := pair.held
    rw [here] at held
    exact absurd held taken
  | suspend here _ => rw [here]; rfl
  | blocked here _ => rw [here]; rfl
  | exited here => rw [here]; rfl
  | failed here => rw [here]; rfl

/-- A process that has been told does not wait in `sigsuspend`. -/
theorem Pair.not_suspended (pair : Pair r p q mine theirs) (told : q.pc.told = true)
    (here : p.pc = .suspend) : p.pending = true := by
  have flags := pair.flags
  rw [Proc.Flags, here, told] at flags
  exact flags.2

/-- A process waits for its second byte only while the other one can go on. -/
theorem Pair.not_blocked (pair : Pair r p q mine theirs) (here : p.pc = .blocked)
    (taken : theirs ≠ none) (told : p.pc.told = true) : ¬ Halted q theirs mine := by
  intro halted
  have fits := pair.fits
  have otherFits := pair.otherFits
  rw [here] at fits otherFits
  cases halted with
  | lockFirst there free =>
    have held := pair.otherHeld
    rw [there] at held
    exact free held
  | suspend there quiet =>
    rw [pair.symm.not_suspended told there] at quiet
    cases quiet
  | blocked there _ => exact fits there
  | exited there =>
    rw [there] at otherFits
    cases otherFits
  | failed there =>
    have held := pair.otherHeld
    rw [there, here] at held
    exact taken held

/-- When neither process can go on, one has failed and the other has exited after it. -/
theorem Pair.halted (pair : Pair r p q mine theirs) (haltedP : Halted p mine theirs)
    (haltedQ : Halted q theirs mine) :
    (p.pc = .exited ∧ q.pc = .failed) ∨ (p.pc = .failed ∧ q.pc = .exited) := by
  have told := pair.told haltedP
  have otherTold := pair.symm.told haltedQ
  have fits := pair.fits
  cases haltedP with
  | lockFirst here _ =>
    rw [here] at told
    cases told
  | suspend here quiet =>
    rw [pair.not_suspended otherTold here] at quiet
    cases quiet
  | blocked here taken => exact absurd haltedQ (pair.not_blocked here taken told)
  | exited here =>
    rw [here] at fits
    exact .inl ⟨here, fits⟩
  | failed here =>
    rw [here] at fits
    rcases fits with there | there | there
    · cases haltedQ with
      | blocked _ taken =>
        exact absurd (.failed here) (pair.symm.not_blocked there taken otherTold)
      | lockFirst at_ _ | suspend at_ _ | exited at_ | failed at_ => cases there.symm.trans at_
    · cases haltedQ with
      | lockFirst at_ _ | suspend at_ _ | blocked at_ _ | exited at_ | failed at_ =>
        cases there.symm.trans at_
    · exact .inr ⟨here, there⟩

/-- What a run of the two processes guarantees in the state that it reaches. -/
structure Deadlocks (s : State) : Prop where
  /-- A process asks for its second byte only after both got their first one. -/
  together : ∀ r, (s.proc r).pc = .lockSecond ∨ (s.proc r).pc = .blocked → s.lock r = some r ∧
    (s.lock r.other = some r.other ∨ (s.proc r.other).pc = .failed)
  /-- The processes come to rest. -/
  ends : ∃ bound, ∀ later s', Machine.run Signals.step s later = some s' → later.length ≤ bound
  /-- When neither process can go on, one has been refused its second byte, and the other one has
  got it and exited. -/
  refused : Machine.Stuck Signals.step (fun _ => True) s →
    ∃ r, (s.proc r).pc = .exited ∧ (s.proc r.other).pc = .failed

/-- In every interleaving of the processes no signal is lost, and the deadlock comes about and is
resolved: one of them, and only one, is refused its second lock. -/
theorem deadlock_detected {events : List Role}
    (ran : Machine.run Signals.step start events = some s) :
    Deadlocks s := by
  have inv : ∀ r, Inv s r := by
    have keeps : ∀ s r s', (∀ r', Inv s r') → Signals.step s r = some s' → ∀ r', Inv s' r' :=
      fun s r s' inv stepped r' => ((inv r).step stepped).both
    exact Machine.run_keeps keeps start_inv ran
  refine ⟨fun r asks => ?_, ⟨weight s, fun later s' ran' => ?_⟩, fun stuck => ?_⟩
  · exact (inv r).together asks
  · exact Machine.run_length_le_measure (fun _ _ _ stepped => weight_step stepped) ran'
  · have halted := fun r => halted_of_step (stuck r trivial)
    have other := halted Role.parent.other
    rw [other_other] at other
    rcases (inv .parent).halted (halted .parent) other with ⟨fine, failed⟩ | ⟨failed, fine⟩
    · exact ⟨.parent, fine, failed⟩
    · exact ⟨.child, fine, failed⟩

/-- The parent is told while it waits, and the child before it does. -/
def toTheEnd : List Role :=
  [.child, .parent, .child, .child, .parent, .child, .parent, .parent, .parent, .child, .child,
    .parent, .parent, .child, .child, .parent, .parent, .child, .child]

/-- In that run the parent is refused its second byte. -/
theorem deadlock_detected_toTheEnd : ∃ s, Machine.run Signals.step start toTheEnd = some s ∧
    (s.proc .parent).pc = .failed ∧ (s.proc .child).pc = .exited ∧ Deadlocks s := by
  have ends : (Machine.run Signals.step start toTheEnd).map
      (fun s => ((s.proc .parent).pc, (s.proc .child).pc)) = some (.failed, .exited) := by decide
  obtain ⟨s, ran, pcs⟩ := Option.map_eq_some_iff.mp ends
  rw [Prod.mk.injEq] at pcs
  exact ⟨s, ran, pcs.1, pcs.2, deadlock_detected ran⟩

end Steps

end CodeLearning.Signals
