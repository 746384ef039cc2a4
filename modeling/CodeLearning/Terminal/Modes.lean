import CodeLearning.Lib.Machine
import Mathlib.Logic.Function.Basic

/-!
# Terminal modes

`tty_cbreak` and `tty_raw` change the settings of a terminal and keep what they were; `tty_reset`
and `tty_atexit` put that back. A driver may carry out a part of a change only, so that both look
whether all of it was made. `tty_raw` looks for one flag more than it clears.
-/

namespace CodeLearning.Terminal

/-- The flags of `termios.h`. -/
abbrev Flags := BitVec 32

/-- `BRKINT`. -/
def BRKINT : Flags := 0x2

/-- `INPCK`. -/
def INPCK : Flags := 0x10

/-- `ISTRIP`. -/
def ISTRIP : Flags := 0x20

/-- `ICRNL`. -/
def ICRNL : Flags := 0x100

/-- `IXON`. -/
def IXON : Flags := 0x400

/-- `OPOST`. -/
def OPOST : Flags := 0x1

/-- `CSIZE`. -/
def CSIZE : Flags := 0x30

/-- `CS8`. -/
def CS8 : Flags := 0x30

/-- `PARENB`. -/
def PARENB : Flags := 0x100

/-- `ISIG`. -/
def ISIG : Flags := 0x1

/-- `ICANON`. -/
def ICANON : Flags := 0x2

/-- `ECHO`. -/
def ECHO : Flags := 0x8

/-- `IEXTEN`. -/
def IEXTEN : Flags := 0x8000

/-- `struct termios`. -/
structure Termios where
  /-- `c_iflag`. -/
  iflag : Flags
  /-- `c_oflag`. -/
  oflag : Flags
  /-- `c_cflag`. -/
  cflag : Flags
  /-- `c_lflag`. -/
  lflag : Flags
  /-- `c_cc[VMIN]`. -/
  vmin : UInt8
  /-- `c_cc[VTIME]`. -/
  vtime : UInt8
  /-- The other characters. -/
  others : List UInt8
deriving DecidableEq

/-- What `tty_cbreak` asks for. -/
def Termios.cbreak (buf : Termios) : Termios :=
  { buf with lflag := buf.lflag &&& ~~~(ECHO ||| ICANON), vmin := 1, vtime := 0 }

/-- What `tty_cbreak` looks for. -/
def Termios.isCbreak (buf : Termios) : Bool :=
  buf.lflag &&& (ECHO ||| ICANON) == 0 && buf.vmin == 1 && buf.vtime == 0

/-- What `tty_raw` asks for. -/
def Termios.raw (buf : Termios) : Termios :=
  { buf with
    lflag := buf.lflag &&& ~~~(ECHO ||| ICANON ||| IEXTEN ||| ISIG)
    iflag := buf.iflag &&& ~~~(BRKINT ||| ICRNL ||| ISTRIP ||| IXON)
    cflag := (buf.cflag &&& ~~~(CSIZE ||| PARENB)) ||| CS8
    oflag := buf.oflag &&& ~~~OPOST
    vmin := 1
    vtime := 0 }

/-- What `tty_raw` looks for. -/
def Termios.isRaw (buf : Termios) : Bool :=
  buf.lflag &&& (ECHO ||| ICANON ||| IEXTEN ||| ISIG) == 0 &&
    buf.iflag &&& (BRKINT ||| ICRNL ||| INPCK ||| ISTRIP ||| IXON) == 0 &&
    buf.cflag &&& (CSIZE ||| PARENB ||| CS8) == CS8 && buf.oflag &&& OPOST == 0 &&
    buf.vmin == 1 && buf.vtime == 0

/-- `ttystate`. -/
inductive TtyState where
  /-- `RESET`. -/
  | reset
  /-- `RAW`. -/
  | raw
  /-- `CBREAK`. -/
  | cbreak
deriving DecidableEq

/-- Whether settings are those of a mode. -/
def TtyState.taken : TtyState → Termios → Bool
  | .reset, _ => true
  | .raw, buf => buf.isRaw
  | .cbreak, buf => buf.isCbreak

/-- The variables of the file, and the settings of the terminals by their descriptors. -/
structure Tty (F : Type) where
  /-- The settings of each terminal. -/
  settings : F → Termios
  /-- `save_termios`. -/
  saveTermios : Termios
  /-- `ttysavefd`. -/
  ttysavefd : Option F
  /-- `ttystate`. -/
  ttystate : TtyState

/-- What a function returns: `0`, or `-1` with an `errno` of its own or of a system call. -/
inductive Result where
  /-- `0`. -/
  | ok
  /-- `EINVAL`. -/
  | einval
  /-- The `errno` of `tcgetattr` or `tcsetattr`. -/
  | failed
deriving DecidableEq

/-- What the calls of `tcgetattr` and `tcsetattr` in `tty_cbreak` or `tty_raw` do. -/
structure Calls where
  /-- The first `tcgetattr` succeeds. -/
  get : Bool
  /-- What the driver makes of the settings it is asked for, if `tcsetattr` succeeds. -/
  set : Option (Termios → Termios)
  /-- The second `tcgetattr` succeeds. -/
  getAgain : Bool
  /-- `tcsetattr` puts the settings back. -/
  restore : Bool

/-- A call of one of the functions. -/
inductive Event (F : Type) where
  /-- `tty_cbreak`. -/
  | cbreak (fd : F) (calls : Calls)
  /-- `tty_raw`. -/
  | raw (fd : F) (calls : Calls)
  /-- `tty_reset`, and whether `tcsetattr` succeeds. -/
  | reset (fd : F) (set : Bool)
  /-- `tty_atexit`, and whether `tcsetattr` succeeds. -/
  | atexit (set : Bool)

section Functions

variable {F : Type} [DecidableEq F]

/-- The settings of a terminal are changed. -/
def Tty.put (s : Tty F) (fd : F) (buf : Termios) : Tty F :=
  { s with settings := Function.update s.settings fd buf }

/-- The saved settings are put back, if that succeeds. -/
def Tty.restore (s : Tty F) (fd : F) (succeeds : Bool) : Tty F :=
  if succeeds then s.put fd s.saveTermios else s

/-- `tty_cbreak` and `tty_raw`, by the state they go to, what they ask for and what they look
for. -/
def setMode (mode : TtyState) (request : Termios → Termios) (taken : Termios → Bool) (s : Tty F)
    (fd : F) (calls : Calls) : Result × Tty F :=
  if s.ttystate ≠ .reset then (.einval, s)
  else if calls.get = false then (.failed, s)
  else
    let saved := { s with saveTermios := s.settings fd }
    match calls.set with
    | none => (.failed, saved)
    | some driver =>
      let changed := saved.put fd (driver (request (s.settings fd)))
      if calls.getAgain = false then (.failed, changed.restore fd calls.restore)
      else if taken (changed.settings fd) = false then (.einval, changed.restore fd calls.restore)
      else (.ok, { changed with ttystate := mode, ttysavefd := some fd })

/-- `tty_cbreak`. -/
def ttyCbreak (s : Tty F) (fd : F) (calls : Calls) : Result × Tty F :=
  setMode .cbreak Termios.cbreak Termios.isCbreak s fd calls

/-- `tty_raw`. -/
def ttyRaw (s : Tty F) (fd : F) (calls : Calls) : Result × Tty F :=
  setMode .raw Termios.raw Termios.isRaw s fd calls

/-- `tty_reset`. -/
def ttyReset (s : Tty F) (fd : F) (set : Bool) : Result × Tty F :=
  if s.ttystate = .reset then (.ok, s)
  else if set = false then (.failed, s)
  else (.ok, { s.put fd s.saveTermios with ttystate := .reset })

/-- `tty_atexit`. -/
def ttyAtexit (s : Tty F) (set : Bool) : Tty F :=
  match s.ttysavefd with
  | none => s
  | some fd => (ttyReset s fd set).2

/-- A call of a program that resets the terminal whose mode it has set. -/
def step (s : Tty F) : Event F → Option (Tty F)
  | .cbreak fd calls => some (ttyCbreak s fd calls).2
  | .raw fd calls => some (ttyRaw s fd calls).2
  | .reset fd set =>
    if s.ttystate = .reset ∨ s.ttysavefd = some fd then some (ttyReset s fd set).2 else none
  | .atexit set => some (ttyAtexit s set)

/-- The variables before the first call. -/
def start (settings : F → Termios) (zero : Termios) : Tty F := ⟨settings, zero, none, .reset⟩

end Functions

/-- Settings that a function has to put back it does put back. -/
def Event.Restores {F : Type} : Event F → Prop
  | .cbreak _ calls => calls.restore = true
  | .raw _ calls => calls.restore = true
  | _ => True

/-- The calls succeed, and the driver does what it is asked for. -/
def Calls.Obey (calls : Calls) : Prop :=
  calls.get = true ∧ calls.set = some id ∧ calls.getAgain = true

/-! ## What a driver that obeys makes of the requests -/

/-- What is cleared is not there. -/
theorem clear_and (x m : Flags) : x &&& ~~~m &&& m = 0 := by
  rw [BitVec.and_assoc]
  simp

/-- A driver that obeys makes the whole change to cbreak mode. -/
theorem isCbreak_cbreak (buf : Termios) : buf.cbreak.isCbreak = true := by
  simp only [Termios.isCbreak, Termios.cbreak, clear_and]
  rfl

/-- A driver that obeys makes the whole change to raw mode, but for the parity check on input. -/
theorem isRaw_raw (buf : Termios) : buf.raw.isRaw = true ↔ buf.iflag &&& INPCK = 0 := by
  have control : buf.raw.cflag &&& (CSIZE ||| PARENB ||| CS8) = CS8 := by
    have masks : CSIZE ||| PARENB ||| CS8 = CSIZE ||| PARENB := by decide
    have inside : CS8 &&& (CSIZE ||| PARENB) = CS8 := by decide
    rw [Termios.raw, masks, BitVec.and_or_distrib_right, clear_and, inside]
    exact BitVec.zero_or
  have input : buf.raw.iflag &&& (BRKINT ||| ICRNL ||| INPCK ||| ISTRIP ||| IXON) =
      buf.iflag &&& INPCK := by
    have masks : ~~~(BRKINT ||| ICRNL ||| ISTRIP ||| IXON) &&&
        (BRKINT ||| ICRNL ||| INPCK ||| ISTRIP ||| IXON) = INPCK := by decide
    rw [Termios.raw, BitVec.and_assoc, masks]
  rw [Termios.isRaw, control, input]
  simp [Termios.raw, clear_and]

/-! ## Runs -/

section Runs

variable {F : Type} [DecidableEq F] {original : F → Termios} {s s' : Tty F} {event : Event F}
  {fd : F} {calls : Calls} {mode : TtyState} {request : Termios → Termios}
  {taken : Termios → Bool}

/-- The terminals have their original settings, but for one that is in a mode. -/
structure Kept (original : F → Termios) (s : Tty F) : Prop where
  /-- No terminal is changed in the state `RESET`. -/
  reset : s.ttystate = .reset → s.settings = original
  /-- In the other states one is in the mode, its original settings are saved, and no other terminal
  is changed. -/
  changed : s.ttystate ≠ .reset → ∃ fd, s.ttysavefd = some fd ∧ s.saveTermios = original fd ∧
    s.ttystate.taken (s.settings fd) = true ∧ ∀ other, other ≠ fd →
      s.settings other = original other

/-- A terminal that gets its original settings back. -/
theorem put_original {settings : F → Termios} (others : ∀ other, other ≠ fd →
    settings other = original other) : Function.update settings fd (original fd) = original := by
  funext other
  by_cases same : other = fd
  · rw [same, Function.update_self]
  · rw [Function.update_of_ne same, others other same]

/-- A change of mode, of which nothing is left when it fails. -/
theorem Kept.setMode (kept : Kept original s) (restores : calls.restore = true)
    (isMode : mode ≠ .reset) (takes : mode.taken = taken) :
    Kept original (setMode mode request taken s fd calls).2 := by
  unfold Terminal.setMode
  split
  · exact kept
  · rename_i quiet
    rw [not_not] at quiet
    have same := kept.reset quiet
    have others : ∀ buf other, other ≠ fd → Function.update s.settings fd buf other =
        original other := by
      intro buf other differ
      rw [Function.update_of_ne differ, same]
    have back : ∀ buf, Kept original
        ((({ s with saveTermios := s.settings fd } : Tty F).put fd buf).restore fd
          calls.restore) := by
      intro buf
      refine ⟨fun _ => ?_, fun active => ?_⟩
      · simp only [Tty.restore, restores, if_true, Tty.put]
        rw [Function.update_idem, same]
        exact put_original fun _ _ => rfl
      · simp only [Tty.restore, restores, if_true, Tty.put] at active
        exact absurd quiet active
    split
    · exact kept
    · split
      · exact ⟨fun _ => same, fun active => absurd quiet active⟩
      · rename_i driver _
        dsimp only
        split
        · exact back _
        · split
          · exact back _
          · rename_i stuck
            rw [Bool.not_eq_false] at stuck
            refine ⟨fun active => absurd active isMode, fun _ => ⟨fd, rfl, ?_, ?_, others _⟩⟩
            · show s.settings fd = original fd
              rw [same]
            · show mode.taken _ = true
              rw [takes]
              exact stuck

/-- The terminal in a mode is put back. -/
theorem Kept.ttyReset {set : Bool} (kept : Kept original s)
    (fits : s.ttystate = .reset ∨ s.ttysavefd = some fd) :
    Kept original (ttyReset s fd set).2 := by
  unfold Terminal.ttyReset
  split
  · exact kept
  · rename_i active
    split
    · exact kept
    · obtain ⟨fd', isSaved, saved, -, others⟩ := kept.changed active
      have same : fd' = fd := by
        rw [isSaved] at fits
        exact Option.some.inj (fits.resolve_left active)
      subst same
      refine ⟨fun _ => ?_, fun active => absurd rfl active⟩
      show Function.update s.settings fd' s.saveTermios = original
      rw [saved]
      exact put_original others

/-- Every call keeps the settings apart. -/
theorem Kept.step (kept : Kept original s) (restores : event.Restores)
    (stepped : Terminal.step s event = some s') : Kept original s' := by
  cases event with
  | cbreak fd calls =>
    obtain rfl := Option.some.inj stepped
    exact kept.setMode restores (by decide) rfl
  | raw fd calls =>
    obtain rfl := Option.some.inj stepped
    exact kept.setMode restores (by decide) rfl
  | reset fd set =>
    simp only [Terminal.step] at stepped
    split at stepped
    · rename_i fits
      obtain rfl := Option.some.inj stepped
      exact kept.ttyReset fits
    · cases stepped
  | atexit set =>
    obtain rfl := Option.some.inj stepped
    unfold ttyAtexit
    split
    · exact kept
    · rename_i fd isSaved
      exact kept.ttyReset (.inr isSaved)

/-- A driver that obeys decides by what `tty_cbreak` or `tty_raw` looks for alone. -/
theorem setMode_ok_iff (quiet : s.ttystate = .reset) (obey : calls.Obey) :
    (setMode mode request taken s fd calls).1 = .ok ↔ taken (request (s.settings fd)) = true := by
  obtain ⟨get, set, again⟩ := obey
  simp only [setMode, quiet, get, set, again, ne_eq, not_true_eq_false, if_false, Tty.put, id_eq,
    Function.update_self, Bool.true_eq_false]
  split
  · rename_i refused
    simp [refused]
  · rename_i granted
    simpa using granted

/-- What the functions guarantee in every state. -/
structure Sound (original : F → Termios) (s : Tty F) : Prop where
  /-- One terminal at most is in a mode, the one with the settings looked for, and no other terminal
  is changed. -/
  kept : Kept original s
  /-- A `tty_atexit` that succeeds leaves all terminals with their original settings. -/
  atexit : (ttyAtexit s true).settings = original
  /-- With a driver that obeys `tty_cbreak` succeeds. -/
  cbreak : ∀ fd calls, s.ttystate = .reset → calls.Obey → (ttyCbreak s fd calls).1 = .ok
  /-- With a driver that obeys `tty_raw` fails exactly on a terminal that checks the parity of its
  input. -/
  raw : ∀ fd calls, s.ttystate = .reset → calls.Obey →
    ((ttyRaw s fd calls).1 = .ok ↔ (original fd).iflag &&& INPCK = 0)

/-- In every run of the functions on any terminals, with drivers that make of a request what they
like and calls that fail: the terminals have their original settings but for the one whose mode is
set, as long as what has to be put back is. -/
theorem modes_sound {zero : Termios} {events : List (Event F)}
    (restores : ∀ event ∈ events, event.Restores)
    (ran : Machine.run Terminal.step (start original zero) events = some s) : Sound original s := by
  have first : Kept original (start original zero) :=
    ⟨fun _ => rfl, fun active => absurd rfl active⟩
  have kept : Kept original s :=
    Machine.run_keeps_of (fun _ _ _ kept restores stepped => kept.step restores stepped) first
      restores ran
  refine ⟨kept, ?_, fun fd calls quiet obey => ?_, fun fd calls quiet obey => ?_⟩
  · by_cases quiet : s.ttystate = .reset
    · unfold ttyAtexit
      split
      · exact kept.reset quiet
      · rw [ttyReset, if_pos quiet]
        exact kept.reset quiet
    · obtain ⟨fd, isSaved, -⟩ := kept.changed quiet
      have after : Kept original (ttyReset s fd true).2 := kept.ttyReset (.inr isSaved)
      simp only [ttyAtexit, isSaved]
      refine after.reset ?_
      rw [ttyReset, if_neg quiet]
      rfl
  · exact (setMode_ok_iff quiet obey).mpr (isCbreak_cbreak _)
  · rw [← kept.reset quiet]
    exact (setMode_ok_iff quiet obey).trans (isRaw_raw _)

/-- Settings of a line on which characters are checked for their parity, or not. -/
def lineSettings (checks : Bool) : Termios :=
  ⟨if checks then INPCK ||| ICRNL else ICRNL, OPOST, 0x1a0, ECHO ||| ICANON ||| ISIG, 4, 0, [3, 28]⟩

/-- Calls that all succeed. -/
def obeying : Calls := ⟨true, some id, true, true⟩

/-- `tty_raw` fails on the first line, `tty_cbreak` succeeds on the second, `tty_reset` fails. -/
def twoLines : List (Event Bool) := [.raw true obeying, .cbreak false obeying, .reset false false]

/-- In that run the second line stays in cbreak mode. -/
theorem modes_sound_twoLines : ∃ s, Machine.run Terminal.step
    (start lineSettings (lineSettings false)) twoLines = some s ∧ s.ttystate = .cbreak ∧
      Sound lineSettings s := by
  have ends : (Machine.run Terminal.step (start lineSettings (lineSettings false)) twoLines).map
      Tty.ttystate = some .cbreak := by decide +kernel
  obtain ⟨s, ran, state⟩ := Option.map_eq_some_iff.mp ends
  refine ⟨s, ran, state, modes_sound (fun event mem => ?_) ran⟩
  simp only [twoLines, List.mem_cons, List.not_mem_nil, or_false] at mem
  rcases mem with rfl | rfl | rfl
  · rfl
  · rfl
  · trivial

end Runs

end CodeLearning.Terminal
