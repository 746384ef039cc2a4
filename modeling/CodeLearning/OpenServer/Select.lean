import CodeLearning.OpenServer.Client
import Mathlib.Data.Finset.Basic

/-!
# The `select` loop of the open server

The loop of `loop_select.c` as a machine whose steps are one pass through the top of the
loop (`select`, and one `serv_accept` when the listening descriptor is ready) or one pass
through the body of the scan over the client table. What the kernel returns is the input
of a step: the ready set, the accepted descriptor and user, the result of `read`.
`handle_request` opens and closes a descriptor of its own and changes no table, so it is
the event of its call. `fd_set` is a finite set of descriptors that are below `FD_SETSIZE`:
`FD_SET` of a greater one writes outside of it.
-/

namespace CodeLearning.OpenServer

/-- `FD_SETSIZE`: the number of bits of an `fd_set`. -/
def fdSetsize : Int := 1024

/-- `FD_SET`; `none` when the descriptor has no bit. -/
def fdSet (fd : Int) (set : Finset Int) : Option (Finset Int) :=
  if fd < fdSetsize then some (insert fd set) else none

/-- Where the loop stands. -/
inductive SelectPc where
  /-- Before `rset = allset; select(...)`. -/
  | top
  /-- Before the body of the scan for index `i`, with the ready set of this round. -/
  | scan (i : Nat) (rset : Finset Int)

/-- Variables of `loop` and the client table. -/
structure SelectState where
  /-- The client array. -/
  client : List Client
  /-- Descriptors watched. -/
  allset : Finset Int
  /-- Largest descriptor watched. -/
  maxfd : Int
  /-- Largest index of the client array in use, `-1` at first. -/
  maxi : Int
  /-- Program point. -/
  pc : SelectPc
  /-- Set once the process has left the loop. -/
  exit : Option Exit
  /-- What the outside saw, newest first. -/
  log : List Event

/-- What the kernel does in one step. -/
structure Kernel where
  /-- `select` or `poll` fails. -/
  waitFails : Bool
  /-- Descriptors reported ready. -/
  ready : Int → Bool
  /-- Result of `serv_accept`, negative when it fails. -/
  clifd : Int
  /-- User reported by `serv_accept`. -/
  uid : Nat
  /-- Result of `read`. -/
  read : ReadResult

/-- The kernel returns a descriptor that is not open: neither the listening one nor a
client that is still connected. -/
def Kernel.Fresh (kernel : Kernel) (listenfd : Int) (log : List Event) : Prop :=
  kernel.clifd ≠ listenfd ∧ isOpen log kernel.clifd = false

/-- It can be decided whether the kernel keeps its promise. -/
instance Kernel.decidableFresh (kernel : Kernel) (listenfd : Int) (log : List Event) :
    Decidable (kernel.Fresh listenfd log) := inferInstanceAs (Decidable (_ ∧ _))

/-- State of `loop` when it first reaches `for (;;)`. -/
def selectStart (listenfd : Int) : SelectState where
  client := []
  allset := (fdSet listenfd ∅).getD ∅
  maxfd := listenfd
  maxi := -1
  pc := .top
  exit := if (fdSet listenfd ∅).isSome then none else some .outOfBounds
  log := []

/-- The accept branch: add the client, watch its descriptor and raise both bounds. -/
def selectAccept (s : SelectState) (clifd : Int) (uid : Nat) : SelectState :=
  let (i, client) := clientAdd s.client clifd uid
  let log := Event.accepted clifd uid :: s.log
  match fdSet clifd s.allset with
  | none => { s with client := client, exit := some .outOfBounds, log := log }
  | some allset =>
    { s with
      client := client
      allset := allset
      maxfd := if clifd > s.maxfd then clifd else s.maxfd
      maxi := if (i : Int) > s.maxi then i else s.maxi
      log := log }

/-- The body of the scan at index `i`. -/
def selectVisit (s : SelectState) (i : Nat) (rset : Finset Int) (read : ReadResult) :
    SelectState :=
  match entryAt s.client i with
  | none => { s with exit := some .outOfBounds }
  | some entry =>
    if entry.fd < 0 then { s with pc := .scan (i + 1) rset }
    else if entry.fd ∈ rset then
      match read with
      | .failed => { s with exit := some .logSys }
      | .hungUp =>
        match clientDel s.client entry.fd with
        | none => { s with exit := some .logQuit, log := .closed entry.fd entry.uid :: s.log }
        | some client =>
          { s with
            client := client
            allset := s.allset.erase entry.fd
            pc := .scan (i + 1) rset
            log := .closed entry.fd entry.uid :: s.log }
      | .data buf =>
        { s with pc := .scan (i + 1) rset, log := .request buf entry.fd entry.uid :: s.log }
    else { s with pc := .scan (i + 1) rset }

/-- One step of `loop`. -/
def selectStep (listenfd : Int) (s : SelectState) (kernel : Kernel) : SelectState :=
  if s.exit.isSome then s
  else match s.pc with
  | .top =>
    let rset := s.allset.filter fun fd => kernel.ready fd
    if kernel.waitFails then { s with exit := some .logSys }
    else if listenfd ∈ rset then
      if kernel.clifd < 0 then { s with exit := some .logSys }
      else selectAccept s kernel.clifd kernel.uid
    else { s with pc := .scan 0 rset }
  | .scan i rset =>
    if (i : Int) ≤ s.maxi then selectVisit s i rset kernel.read
    else { s with pc := .top }

/-- The states that runs of `loop` reach when every step is of the kind `allowed`, a condition
on the state before the step and on what the kernel does in it; the kernel keeps its promise
on descriptors. -/
inductive SelectReaches (listenfd : Int) (allowed : SelectState → Kernel → Prop) :
    SelectState → Prop where
  /-- The loop starts. -/
  | start : SelectReaches listenfd allowed (selectStart listenfd)
  /-- The loop takes a step. -/
  | step {s : SelectState} (kernel : Kernel) (reached : SelectReaches listenfd allowed s)
      (fresh : kernel.Fresh listenfd s.log) (kind : allowed s kernel) :
      SelectReaches listenfd allowed (selectStep listenfd s kernel)

/-- The step goes through the accept branch. -/
def SelectAccepts (listenfd : Int) (s : SelectState) (kernel : Kernel) : Prop :=
  s.pc = .top ∧ kernel.waitFails = false ∧ kernel.ready listenfd = true ∧ 0 ≤ kernel.clifd

/-- A descriptor that is accepted has a bit in `allset`. -/
def AcceptsBelow (listenfd : Int) (s : SelectState) (kernel : Kernel) : Prop :=
  SelectAccepts listenfd s kernel → kernel.clifd < fdSetsize

/-! ## The invariant of the tables -/

/-- A used entry of the client table: a connected client whose descriptor is watched and
whose user id is the one reported for it. -/
structure Connected (listenfd : Int) (s : SelectState) (i : Nat) (entry : Client) : Prop where
  /-- Descriptors are not negative. -/
  nonneg : 0 ≤ entry.fd
  /-- The listening descriptor is not a client. -/
  apart : entry.fd ≠ listenfd
  /-- The descriptor is watched. -/
  watched : entry.fd ∈ s.allset
  /-- The client is connected. -/
  connected : isOpen s.log entry.fd = true
  /-- The user id is the reported one. -/
  known : entry.uid = acceptedUid s.log entry.fd
  /-- The index is within the scan. -/
  index : (i : Int) ≤ s.maxi

/-- What holds between any two steps of the loop. -/
structure SelectInv (listenfd : Int) (s : SelectState) : Prop where
  /-- An entry is free or a connected client. -/
  entries : ∀ i entry, entryAt s.client i = some entry →
    entry.fd = -1 ∨ Connected listenfd s i entry
  /-- No two entries share a descriptor. -/
  distinct : ∀ i j entry other, entryAt s.client i = some entry →
    entryAt s.client j = some other → entry.fd ≠ -1 → other.fd = entry.fd → j = i
  /-- Every watched descriptor but the listening one has an entry. -/
  covered : ∀ fd ∈ s.allset, fd ≠ listenfd → fd ≠ -1 ∧ ∃ i entry,
    entryAt s.client i = some entry ∧ entry.fd = fd
  /-- The listening descriptor stays watched. -/
  listening : listenfd ∈ s.allset
  /-- Descriptors lie below the bound given to `select`. -/
  bounded : ∀ fd ∈ s.allset, fd ≤ s.maxfd
  /-- The scan stays inside the array. -/
  inside : s.maxi < s.client.length
  /-- Every request and close so far carried the right user. -/
  identified : Identified s.log
  /-- The loop was left through `log_sys` only. -/
  leaves : s.exit = none ∨ s.exit = some .logSys

/-- A descriptor below `FD_SETSIZE` is added. -/
theorem fdSet_eq {fd : Int} (below : fd < fdSetsize) (set : Finset Int) :
    fdSet fd set = some (insert fd set) := if_pos below

/-- The invariant holds when the loop starts. -/
theorem selectStart_inv {listenfd : Int} (below : listenfd < fdSetsize) :
    SelectInv listenfd (selectStart listenfd) where
  entries := by simp [selectStart]
  distinct := by simp [selectStart]
  covered := by
    intro fd watched apart
    exact absurd (by simpa [selectStart, fdSet_eq below] using watched) apart
  listening := by simp [selectStart, fdSet_eq below]
  bounded := by simp [selectStart, fdSet_eq below]
  inside := by simp [selectStart]
  identified := trivial
  leaves := Or.inl (by simp [selectStart, fdSet_eq below])

/-- The invariant does not depend on the program point. -/
theorem SelectInv.move {listenfd : Int} {s : SelectState} (inv : SelectInv listenfd s)
    (pc : SelectPc) : SelectInv listenfd { s with pc := pc } where
  entries i entry here := (inv.entries i entry here).imp id fun used =>
    ⟨used.nonneg, used.apart, used.watched, used.connected, used.known, used.index⟩
  distinct := inv.distinct
  covered := inv.covered
  listening := inv.listening
  bounded := inv.bounded
  inside := inv.inside
  identified := inv.identified
  leaves := inv.leaves

/-- Leaving through `log_sys` keeps the invariant. -/
theorem SelectInv.leave {listenfd : Int} {s : SelectState} (inv : SelectInv listenfd s) :
    SelectInv listenfd { s with exit := some .logSys } where
  entries i entry here := (inv.entries i entry here).imp id fun used =>
    ⟨used.nonneg, used.apart, used.watched, used.connected, used.known, used.index⟩
  distinct := inv.distinct
  covered := inv.covered
  listening := inv.listening
  bounded := inv.bounded
  inside := inv.inside
  identified := inv.identified
  leaves := Or.inr rfl

/-- Accepting a fresh descriptor keeps the invariant. The entry it takes was free, so no
connected client loses its own. -/
theorem selectAccept_inv {listenfd : Int} {s : SelectState} (inv : SelectInv listenfd s)
    {clifd : Int} (uid : Nat) (valid : 0 ≤ clifd) (below : clifd < fdSetsize)
    (apart : clifd ≠ listenfd) (fresh : isOpen s.log clifd = false) :
    SelectInv listenfd (selectAccept s clifd uid) := by
  obtain ⟨longer, within⟩ := clientAdd_length s.client clifd uid
  have spec := clientAdd_spec s.client clifd uid
  unfold selectAccept
  simp only [fdSet_eq below]
  generalize clientAdd s.client clifd uid = added at spec longer within
  obtain ⟨slot, client⟩ := added
  obtain ⟨taken, wasFree, others⟩ := spec
  simp only at longer within
  -- an entry of the new table: the new client, an old used entry, or a free one
  have cases_of : ∀ i entry, entryAt client i = some entry → entry.fd ≠ -1 →
      (i = slot ∧ entry = ⟨clifd, some uid⟩) ∨
        (i ≠ slot ∧ entryAt s.client i = some entry ∧ Connected listenfd s i entry) := by
    intro i entry here used
    by_cases same : i = slot
    · subst same
      rw [taken] at here
      exact Or.inl ⟨rfl, (Option.some.inj here).symm⟩
    · rcases others i same with kept | ⟨-, free, now, empty⟩
      · rw [kept] at here
        exact Or.inr ⟨same, here, (inv.entries i entry here).resolve_left used⟩
      · rw [now] at here
        cases here
        exact absurd empty used
  have unseen : ∀ i entry, Connected listenfd s i entry → entry.fd ≠ clifd := by
    rintro i entry old rfl
    rw [old.connected] at fresh
    contradiction
  constructor
  case entries =>
    intro i entry here
    by_cases free : entry.fd = -1
    · exact Or.inl free
    right
    rcases cases_of i entry here free with ⟨rfl, rfl⟩ | ⟨-, -, old⟩
    · exact ⟨valid, apart, Finset.mem_insert_self .., by simp [isOpen], by simp [acceptedUid],
        by simp only; split <;> omega⟩
    · have other := unseen i entry old
      refine ⟨old.nonneg, old.apart, Finset.mem_insert_of_mem old.watched, ?_, ?_, ?_⟩
      · simp [isOpen, Ne.symm other, old.connected]
      · simp [acceptedUid, Ne.symm other, old.known]
      · have := old.index
        simp only
        split <;> omega
  case distinct =>
    intro i j entry other here there used same
    have usedToo : other.fd ≠ -1 := by rw [same]; exact used
    rcases cases_of i entry here used with ⟨rfl, rfl⟩ | ⟨-, hereOld, old⟩
    · rcases cases_of j other there usedToo with ⟨rfl, -⟩ | ⟨-, -, oldToo⟩
      · rfl
      · exact absurd same (unseen j other oldToo)
    · rcases cases_of j other there usedToo with ⟨rfl, rfl⟩ | ⟨-, thereOld, -⟩
      · exact absurd same.symm (unseen i entry old)
      · exact inv.distinct i j entry other hereOld thereOld used same
  case covered =>
    intro fd watched notListen
    rcases Finset.mem_insert.mp watched with rfl | watched
    · exact ⟨by omega, slot, _, taken, rfl⟩
    · obtain ⟨used, i, entry, here, rfl⟩ := inv.covered fd watched notListen
      have elsewhere : i ≠ slot := by
        rintro rfl
        exact used (wasFree entry here)
      rcases others i elsewhere with kept | ⟨missing, -⟩
      · exact ⟨used, i, entry, by rw [kept]; exact here, rfl⟩
      · rw [missing] at here
        contradiction
  case listening => exact Finset.mem_insert_of_mem inv.listening
  case bounded =>
    intro fd watched
    simp only
    rcases Finset.mem_insert.mp watched with rfl | watched
    · split <;> omega
    · have := inv.bounded fd watched
      split <;> omega
  case inside =>
    have := inv.inside
    simp only
    split <;> omega
  case identified => exact inv.identified
  case leaves => exact inv.leaves

/-- A hang-up frees the entry of the client and stops watching its descriptor. -/
theorem selectHangUp_inv {listenfd : Int} {s : SelectState} (inv : SelectInv listenfd s)
    {i : Nat} {entry : Client} (here : entryAt s.client i = some entry)
    (used : Connected listenfd s i entry) (pc : SelectPc) :
    ∃ client, clientDel s.client entry.fd = some client ∧
      SelectInv listenfd { s with
        client := client
        allset := s.allset.erase entry.fd
        pc := pc
        log := .closed entry.fd entry.uid :: s.log } := by
  have present : entry.fd ≠ -1 := by
    have := used.nonneg
    omega
  obtain ⟨client, deleted, freed, length, others⟩ := clientDel_spec here
    fun j other there same => inv.distinct i j entry other here there present same
  refine ⟨client, deleted, ?_⟩
  -- a used entry of the new table is an old one with another descriptor
  have old_of : ∀ j other, entryAt client j = some other → other.fd ≠ -1 →
      j ≠ i ∧ entryAt s.client j = some other ∧ other.fd ≠ entry.fd := by
    intro j other there usedToo
    by_cases same : j = i
    · subst same
      rw [freed] at there
      cases there
      exact absurd rfl usedToo
    · rw [others j same] at there
      exact ⟨same, there, fun equal =>
        same (inv.distinct i j entry other here there present equal)⟩
  constructor
  case entries =>
    intro j other there
    by_cases free : other.fd = -1
    · exact Or.inl free
    right
    obtain ⟨-, thereOld, apart⟩ := old_of j other there free
    have old := (inv.entries j other thereOld).resolve_left free
    refine ⟨old.nonneg, old.apart, Finset.mem_erase.mpr ⟨apart, old.watched⟩, ?_, ?_, old.index⟩
    · simp [isOpen, Ne.symm apart, old.connected]
    · simp [acceptedUid, old.known]
  case distinct =>
    intro j k first second there yonder usedToo same
    obtain ⟨-, thereOld, -⟩ := old_of j first there usedToo
    obtain ⟨-, yonderOld, -⟩ := old_of k second yonder (by rw [same]; exact usedToo)
    exact inv.distinct j k first second thereOld yonderOld usedToo same
  case covered =>
    intro fd watched notListen
    obtain ⟨apart, watched⟩ := Finset.mem_erase.mp watched
    obtain ⟨usedToo, j, other, there, rfl⟩ := inv.covered fd watched notListen
    have elsewhere : j ≠ i := by
      rintro rfl
      rw [here] at there
      cases there
      exact apart rfl
    exact ⟨usedToo, j, other, by rw [others j elsewhere]; exact there, rfl⟩
  case listening => exact Finset.mem_erase.mpr ⟨Ne.symm used.apart, inv.listening⟩
  case bounded => exact fun fd watched => inv.bounded fd (Finset.mem_of_mem_erase watched)
  case inside => simpa only [length] using inv.inside
  case identified => exact ⟨used.known, inv.identified⟩
  case leaves => exact inv.leaves

/-- A request is handled with the user of its client. -/
theorem selectRequest_inv {listenfd : Int} {s : SelectState} (inv : SelectInv listenfd s)
    {i : Nat} {entry : Client} (used : Connected listenfd s i entry) (buf : List UInt8)
    (pc : SelectPc) :
    SelectInv listenfd { s with pc := pc, log := .request buf entry.fd entry.uid :: s.log } where
  entries j other there := (inv.entries j other there).imp id fun old =>
    ⟨old.nonneg, old.apart, old.watched, by simpa [isOpen] using old.connected,
      by simpa [acceptedUid] using old.known, old.index⟩
  distinct := inv.distinct
  covered := inv.covered
  listening := inv.listening
  bounded := inv.bounded
  inside := inv.inside
  identified := ⟨used.known, inv.identified⟩
  leaves := inv.leaves

/-- One visit of the scan keeps the invariant. -/
theorem selectVisit_inv {listenfd : Int} {s : SelectState} (inv : SelectInv listenfd s)
    {i : Nat} (within : (i : Int) ≤ s.maxi) (rset : Finset Int) (read : ReadResult) :
    SelectInv listenfd (selectVisit s i rset read) := by
  have inside : i < s.client.length := by
    have := inv.inside
    omega
  have here : entryAt s.client i = some s.client[i] := List.getElem?_eq_getElem inside
  unfold selectVisit
  rw [here]
  generalize s.client[i] = entry at here
  simp only
  split
  · exact inv.move _
  · rename_i nonneg
    have used : Connected listenfd s i entry :=
      (inv.entries i entry here).resolve_left (by omega)
    split
    · cases read with
      | failed => exact inv.leave
      | hungUp =>
        obtain ⟨client, deleted, kept⟩ := selectHangUp_inv inv here used (.scan (i + 1) rset)
        simp only [deleted]
        exact kept
      | data buf => exact selectRequest_inv inv used buf _
    · exact inv.move _

/-- One step of the loop keeps the invariant, unless it accepts a descriptor that has no bit. -/
theorem selectStep_inv {listenfd : Int} {s : SelectState} (inv : SelectInv listenfd s)
    {kernel : Kernel} (fresh : kernel.Fresh listenfd s.log)
    (kind : AcceptsBelow listenfd s kernel) :
    SelectInv listenfd (selectStep listenfd s kernel) := by
  unfold selectStep
  split
  · exact inv
  · split
    · rename_i top
      dsimp only
      split
      · exact inv.leave
      · rename_i waits
        split
        · rename_i ready
          split
          · exact inv.leave
          · rename_i valid
            have accepts : SelectAccepts listenfd s kernel :=
              ⟨top, by simpa using waits, (Finset.mem_filter.mp ready).2, by omega⟩
            exact selectAccept_inv inv kernel.uid (by omega) (kind accepts) fresh.1 fresh.2
        · exact inv.move _
    · split
      · rename_i within
        exact selectVisit_inv inv within _ _
      · exact inv.move _

/-- Every state of a run that only accepts descriptors below `FD_SETSIZE` has the invariant. -/
theorem selectReaches_inv {listenfd : Int} {s : SelectState} (below : listenfd < fdSetsize)
    (reached : SelectReaches listenfd (AcceptsBelow listenfd) s) : SelectInv listenfd s := by
  induction reached with
  | start => exact selectStart_inv below
  | step kernel _ fresh kind inv => exact selectStep_inv inv fresh kind

/-- The client table of the `select` loop, in every state of every run in which the listening
descriptor and all accepted ones are below `FD_SETSIZE`: the watched descriptors other than
the listening one are those of the used entries, each in exactly one entry and that at an
index of at most `maxi`, none above `maxfd`; the loop is never left through `log_quit`; and
every request carries the user reported when its descriptor was accepted. -/
theorem select_table_exact (listenfd : Int) (below : listenfd < fdSetsize) (s : SelectState)
    (reached : SelectReaches listenfd (AcceptsBelow listenfd) s) :
    (∀ fd, (fd ∈ s.allset ∧ fd ≠ listenfd) ↔
      fd ≠ -1 ∧ ∃ i entry, entryAt s.client i = some entry ∧ entry.fd = fd) ∧
    (∀ fd ∈ s.allset, fd ≠ listenfd → ∃ i : Nat, (i : Int) ≤ s.maxi ∧
      ∀ j, (∃ entry, entryAt s.client j = some entry ∧ entry.fd = fd) ↔ j = i) ∧
    (∀ fd ∈ s.allset, fd ≤ s.maxfd) ∧
    s.exit ≠ some .logQuit ∧
    Identified s.log := by
  have inv := selectReaches_inv below reached
  refine ⟨?_, ?_, inv.bounded, ?_, inv.identified⟩
  · intro fd
    constructor
    · rintro ⟨watched, apart⟩
      exact inv.covered fd watched apart
    · rintro ⟨present, i, entry, here, rfl⟩
      have used := (inv.entries i entry here).resolve_left present
      exact ⟨used.watched, used.apart⟩
  · intro fd watched apart
    obtain ⟨present, i, entry, here, rfl⟩ := inv.covered fd watched apart
    have used := (inv.entries i entry here).resolve_left present
    refine ⟨i, used.index, fun j => ⟨?_, ?_⟩⟩
    · rintro ⟨other, there, same⟩
      exact inv.distinct i j entry other here there present same
    · rintro rfl
      exact ⟨entry, here, rfl⟩
  · rcases inv.leaves with left | left <;> simp [left]

/-- The steps of a run, as long as each of them passes a check. -/
def runChecked {σ : Type} (step : σ → Kernel → σ) (check : σ → Kernel → Bool) :
    σ → List Kernel → Option σ
  | s, [] => some s
  | s, kernel :: rest =>
    if check s kernel then runChecked step check (step s kernel) rest else none

/-- What steps that pass the check keep holds at the end of the run. -/
theorem runChecked_keeps {σ : Type} {step : σ → Kernel → σ} {check : σ → Kernel → Bool}
    {p : σ → Prop} (keeps : ∀ s kernel, check s kernel = true → p s → p (step s kernel))
    (kernels : List Kernel) {s t : σ} (now : p s) (run : runChecked step check s kernels = some t) :
    p t := by
  induction kernels generalizing s with
  | nil =>
    cases run
    exact now
  | cons kernel rest tail =>
    by_cases passes : check s kernel = true
    · rw [runChecked, if_pos passes] at run
      exact tail (keeps s kernel passes now) run
    · rw [runChecked, if_neg passes] at run
      cases run

/-- The kernel returns a descriptor that is not open, below `FD_SETSIZE`. -/
def freshBelow (listenfd : Int) (s : SelectState) (kernel : Kernel) : Bool :=
  decide (kernel.Fresh listenfd s.log ∧ kernel.clifd < fdSetsize)

/-- What the kernel does while user 100 connects on descriptor 4, sends a byte and hangs up, and
user 200 connects on the same descriptor and sends one. -/
def connectTwice : List Kernel :=
  [ ⟨false, fun fd => fd = 3, 4, 100, .failed⟩,
    ⟨false, fun fd => fd = 4, -1, 0, .failed⟩,
    ⟨false, fun _ => false, -1, 0, .data [0]⟩,
    ⟨false, fun _ => false, -1, 0, .failed⟩,
    ⟨false, fun fd => fd = 4, -1, 0, .failed⟩,
    ⟨false, fun _ => false, -1, 0, .hungUp⟩,
    ⟨false, fun _ => false, -1, 0, .failed⟩,
    ⟨false, fun fd => fd = 3, 4, 200, .failed⟩,
    ⟨false, fun fd => fd = 4, -1, 0, .failed⟩,
    ⟨false, fun _ => false, -1, 0, .data [1]⟩ ]

/-- The tables after these steps. -/
theorem select_table_two_connections :
    ∃ s, SelectReaches 3 (AcceptsBelow 3) s ∧
      s.log = [.request [1] 4 (some 200), .accepted 4 200, .closed 4 (some 100),
        .request [0] 4 (some 100), .accepted 4 100] ∧
      Identified s.log ∧ (4 ∈ s.allset ∧ (4 : Int) ≠ 3 ↔
        (4 : Int) ≠ -1 ∧ ∃ i entry, entryAt s.client i = some entry ∧ entry.fd = 4) := by
  have run : ∃ s, runChecked (selectStep 3) (freshBelow 3) (selectStart 3) connectTwice = some s ∧
      s.log = [.request [1] 4 (some 200), .accepted 4 200, .closed 4 (some 100),
        .request [0] 4 (some 100), .accepted 4 100] := ⟨_, rfl, rfl⟩
  obtain ⟨s, steps, log⟩ := run
  have reached : SelectReaches 3 (AcceptsBelow 3) s := by
    refine runChecked_keeps (fun s kernel passes now => ?_) connectTwice .start steps
    obtain ⟨fresh, below⟩ := of_decide_eq_true passes
    exact .step kernel now fresh fun _ => below
  obtain ⟨watched, -, -, -, identified⟩ := select_table_exact 3 (by decide) s reached
  exact ⟨s, reached, log, identified, watched 4⟩

/-- The kernel accepts descriptor 1024 of user 100. -/
def acceptsBeyond : Kernel := ⟨false, fun fd => fd = 3, 1024, 100, .failed⟩

/-- Descriptor 1024 is in the table and cannot be watched. -/
theorem select_table_beyond :
    ∃ s, SelectReaches 3 (fun _ _ => True) s ∧ s.exit = some .outOfBounds ∧
      ¬ ∀ fd, (fd ∈ s.allset ∧ fd ≠ 3) ↔
        fd ≠ -1 ∧ ∃ i entry, entryAt s.client i = some entry ∧ entry.fd = fd := by
  refine ⟨selectStep 3 (selectStart 3) acceptsBeyond,
    .step acceptsBeyond .start ⟨by decide, rfl⟩ trivial, rfl, fun equal => ?_⟩
  have present : (1024 : Int) ≠ -1 ∧ ∃ i entry,
      entryAt (selectStep 3 (selectStart 3) acceptsBeyond).client i = some entry ∧
        entry.fd = 1024 := ⟨by decide, 0, ⟨1024, some 100⟩, rfl, rfl⟩
  have watched := ((equal 1024).mpr present).1
  exact absurd watched (by decide)

end CodeLearning.OpenServer
