import CodeLearning.OpenServer.Select

/-!
# The `poll` loop of the open server

The loop of `loop_poll.c` as a machine with the same steps as the `select` loop: one pass
through the top of the loop, or one pass through the body of the scan. The scan walks the
`pollfd` array and reads the user id from the client array at the same index. The `pollfd`
array is compacted when a client leaves and the client array is not, so the two indices
agree only in runs that keep the arrays aligned; which steps do is decided before the step
(`KeepsAligned`). The field `events` is `POLLIN` in every entry and is left out.
-/

namespace CodeLearning.OpenServer

/-- `struct pollfd`: a descriptor and the `POLLIN` bit of `revents`. -/
structure PollFd where
  /-- Descriptor, `-1` in an unused entry. -/
  fd : Int
  /-- `revents & POLLIN`. -/
  revents : Bool
deriving DecidableEq, Repr

/-- Where the loop stands. -/
inductive PollPc where
  /-- Before `poll`. -/
  | top
  /-- Before the body of the scan for index `i`. -/
  | scan (i : Nat)
deriving DecidableEq, Repr

/-- Variables of `loop` and the client table; `maxfd` is the length of the array. -/
structure PollState where
  /-- The client array. -/
  client : List Client
  /-- The `pollfd` array. -/
  pollfd : List PollFd
  /-- Entries of the `pollfd` array in use. -/
  numfd : Nat
  /-- Program point. -/
  pc : PollPc
  /-- Set once the process has left the loop. -/
  exit : Option Exit
  /-- What the outside saw, newest first. -/
  log : List Event
deriving DecidableEq, Repr

/-- `NALLOC` unused entries. -/
def unusedPollFds : List PollFd := List.replicate nalloc ⟨-1, false⟩

/-- `grow_pollfd`. -/
def growPollfd (pollfd : List PollFd) : List PollFd := pollfd ++ unusedPollFds

/-- State of `loop` when it first reaches `for (;;)`: the listening descriptor is the first
entry of both arrays. -/
def pollStart (listenfd : Int) : PollState where
  client := (clientAdd [] listenfd 0).2
  pollfd := unusedPollFds.set 0 ⟨listenfd, false⟩
  numfd := 1
  pc := .top
  exit := none
  log := []

/-- What `poll` writes: `revents` of the entries in use. -/
def pollWait (s : PollState) (ready : Int → Bool) : List PollFd :=
  s.pollfd.mapIdx fun i entry =>
    if i < s.numfd then { entry with revents := ready entry.fd } else entry

/-- The accept branch: add the client and put its descriptor behind the entries in use. -/
def pollAccept (s : PollState) (clifd : Int) (uid : Nat) : PollState :=
  let pollfd := if s.numfd = s.pollfd.length then growPollfd s.pollfd else s.pollfd
  { s with
    client := (clientAdd s.client clifd uid).2
    pollfd := pollfd.set s.numfd ⟨clifd, false⟩
    numfd := s.numfd + 1
    log := .accepted clifd uid :: s.log }

/-- The close branch at index `i`: the last entry in use moves to `i`, and `i` is visited
again; the last entry itself is just dropped. -/
def pollClose (s : PollState) (i : Nat) (entry : PollFd) (uid : Option Nat) : PollState :=
  let log := Event.closed entry.fd uid :: s.log
  match clientDel s.client entry.fd with
  | none => { s with exit := some .logQuit, log := log }
  | some client =>
    if i < s.numfd - 1 then
      match s.pollfd[s.numfd - 1]? with
      | none => { s with client := client, exit := some .outOfBounds, log := log }
      | some last =>
        { s with
          client := client
          pollfd := s.pollfd.set i last
          numfd := s.numfd - 1
          pc := .scan i
          log := log }
    else
      { s with client := client, numfd := s.numfd - 1, pc := .scan (i + 1), log := log }

/-- The body of the scan at index `i`. Both `client[i]` and `pollfd[i]` are indexed with the
position in the `pollfd` array. -/
def pollVisit (s : PollState) (i : Nat) (read : ReadResult) : PollState :=
  match s.pollfd[i]? with
  | none => { s with exit := some .outOfBounds }
  | some entry =>
    if entry.revents then
      match read with
      | .failed => { s with exit := some .logSys }
      | .hungUp =>
        match entryAt s.client i with
        | none => { s with exit := some .outOfBounds }
        | some holder => pollClose s i entry holder.uid
      | .data buf =>
        match entryAt s.client i with
        | none => { s with exit := some .outOfBounds }
        | some holder =>
          { s with pc := .scan (i + 1), log := .request buf entry.fd holder.uid :: s.log }
    else { s with pc := .scan (i + 1) }

/-- One step of `loop`. -/
def pollStep (s : PollState) (kernel : Kernel) : PollState :=
  if s.exit.isSome then s
  else match s.pc with
  | .top =>
    if kernel.waitFails then { s with exit := some .logSys }
    else
      let s := { s with pollfd := pollWait s kernel.ready }
      match s.pollfd[0]? with
      | none => { s with exit := some .outOfBounds }
      | some first =>
        if first.revents then
          if kernel.clifd < 0 then { s with exit := some .logSys }
          else { pollAccept s kernel.clifd kernel.uid with pc := .scan 1 }
        else { s with pc := .scan 1 }
  | .scan i =>
    if i < s.numfd then pollVisit s i kernel.read
    else { s with pc := .top }

/-- The states that runs of `loop` reach when every step is of the kind `allowed`, a
condition on the state before the step and on what the kernel does in it. -/
inductive PollReaches (listenfd : Int) (allowed : PollState → Kernel → Prop) :
    PollState → Prop where
  /-- The loop starts. -/
  | start : PollReaches listenfd allowed (pollStart listenfd)
  /-- The loop takes a step. -/
  | step {s : PollState} (kernel : Kernel) (reached : PollReaches listenfd allowed s)
      (fresh : kernel.Fresh listenfd s.log) (kind : allowed s kernel) :
      PollReaches listenfd allowed (pollStep s kernel)

/-- The user id in the client array at an index. -/
def uidAt (s : PollState) (i : Nat) : Option Nat := (entryAt s.client i).bind Client.uid

/-- The step goes through the accept branch. -/
def Accepts (listenfd : Int) (s : PollState) (kernel : Kernel) : Prop :=
  s.pc = .top ∧ kernel.waitFails = false ∧ kernel.ready listenfd = true ∧ 0 ≤ kernel.clifd

/-- The step goes through the close branch at index `i`. -/
def HangsUp (s : PollState) (kernel : Kernel) (i : Nat) : Prop :=
  s.pc = .scan i ∧ i < s.numfd ∧ kernel.read = .hungUp ∧
    ∃ entry, s.pollfd[i]? = some entry ∧ entry.revents = true

/-- The step keeps the two arrays aligned. A client that is accepted fills the entry of the
client array at its own position of the `pollfd` array, or the entry it fills and the entry
at its position hold its user already; a client that leaves stands last in the `pollfd`
array, or has the user of the client that stands last. -/
structure KeepsAligned (listenfd : Int) (s : PollState) (kernel : Kernel) : Prop where
  /-- Condition on a connection. -/
  connection : Accepts listenfd s kernel →
    let slot := (clientAdd s.client kernel.clifd kernel.uid).1
    slot = s.numfd ∨ (uidAt s s.numfd = some kernel.uid ∧
      (slot < s.numfd → uidAt s slot = some kernel.uid))
  /-- Condition on a departure. -/
  departure : ∀ i, HangsUp s kernel i →
    i = s.numfd - 1 ∨ uidAt s i = uidAt s (s.numfd - 1)

/-! ## The aligned tables -/

/-- A descriptor that is open has a reported user. -/
theorem acceptedUid_of_open {log : List Event} {fd : Int} (connected : isOpen log fd = true) :
    ∃ uid, acceptedUid log fd = some uid := by
  induction log with
  | nil => simp [isOpen] at connected
  | cons event rest tail =>
    cases event with
    | accepted other uid =>
      simp only [isOpen, acceptedUid] at connected ⊢
      split
      · exact ⟨uid, rfl⟩
      · rename_i apart
        rw [if_neg apart] at connected
        exact tail connected
    | request buf other uid => exact tail connected
    | closed other uid =>
      simp only [isOpen, acceptedUid] at connected ⊢
      split at connected
      · contradiction
      · exact tail connected

/-- `client_del` changes no user id. -/
theorem clientDel_uid {client client' : List Client} {fd : Int}
    (deleted : clientDel client fd = some client') (j : Nat) :
    (entryAt client' j).bind Client.uid = (entryAt client j).bind Client.uid := by
  unfold clientDel at deleted
  split at deleted
  · rename_i k found
    cases deleted
    simp only [entryAt, List.getElem?_modify]
    split
    · cases client[j]? <;> rfl
    · simp
  · contradiction

/-- `client_add` writes the user id of the entry it returns and keeps those that are set. -/
theorem clientAdd_uid (client : List Client) (fd : Int) (uid : Nat) (j : Nat) {known : Nat}
    (set : (entryAt client j).bind Client.uid = some known) :
    (entryAt (clientAdd client fd uid).2 j).bind Client.uid =
      if j = (clientAdd client fd uid).1 then some uid else some known := by
  have spec := clientAdd_spec client fd uid
  generalize clientAdd client fd uid = added at spec
  have taken := spec.1
  have others := spec.2.2
  split
  · rename_i same
    rw [same, taken]
    rfl
  · rename_i apart
    rcases others j apart with kept | ⟨missing, -⟩
    · rw [kept, set]
    · rw [missing] at set
      contradiction

/-- A position of the `pollfd` array that is in use and aligned: its client is connected and
the client array holds its user at the same index. -/
structure AlignedAt (s : PollState) (j : Nat) (entry : PollFd) : Prop where
  /-- The entry stands there. -/
  here : s.pollfd[j]? = some entry
  /-- Its client is connected. -/
  connected : isOpen s.log entry.fd = true
  /-- The user at the same index is the reported one. -/
  known : uidAt s j = acceptedUid s.log entry.fd

/-- What holds between steps while the arrays are aligned. -/
structure PollInv (listenfd : Int) (s : PollState) : Prop where
  /-- The listening descriptor stands first. -/
  first : ∃ revents, s.pollfd[0]? = some ⟨listenfd, revents⟩
  /-- The first entry is in use. -/
  used : 1 ≤ s.numfd
  /-- The scan starts behind it. -/
  scans : ∀ i, s.pc = .scan i → 1 ≤ i
  /-- Every client position is aligned. -/
  aligned : ∀ j, 1 ≤ j → j < s.numfd → ∃ entry, AlignedAt s j entry
  /-- No two client positions share a descriptor. -/
  distinct : ∀ j k entry other, 1 ≤ j → j < s.numfd → 1 ≤ k → k < s.numfd →
    s.pollfd[j]? = some entry → s.pollfd[k]? = some other → entry.fd = other.fd → j = k

/-- The arrays are aligned when the loop starts. -/
theorem pollStart_inv (listenfd : Int) : PollInv listenfd (pollStart listenfd) where
  first := ⟨false, by simp [pollStart, unusedPollFds, nalloc]⟩
  used := by simp [pollStart]
  scans := by simp [pollStart]
  aligned := by
    intro j low high
    simp only [pollStart] at high
    omega
  distinct := by
    intro j k entry other low high
    simp only [pollStart] at high
    omega

/-- Moving the program point to a later index keeps the tables aligned. -/
theorem PollInv.move {listenfd : Int} {s : PollState} (inv : PollInv listenfd s) {pc : PollPc}
    (later : ∀ i, pc = .scan i → 1 ≤ i) : PollInv listenfd { s with pc := pc } where
  first := inv.first
  used := inv.used
  scans := later
  aligned j low high := by
    obtain ⟨entry, kept⟩ := inv.aligned j low high
    exact ⟨entry, kept.here, kept.connected, kept.known⟩
  distinct := inv.distinct

/-- `poll` writes `revents` only. -/
theorem pollWait_getElem (s : PollState) (ready : Int → Bool) (j : Nat) :
    (pollWait s ready)[j]? = (s.pollfd[j]?).map fun entry =>
      if j < s.numfd then { entry with revents := ready entry.fd } else entry := by
  simp [pollWait]

/-- The tables stay aligned through `poll`. -/
theorem pollWait_inv {listenfd : Int} {s : PollState} (inv : PollInv listenfd s)
    (ready : Int → Bool) : PollInv listenfd { s with pollfd := pollWait s ready } where
  first := by
    obtain ⟨revents, here⟩ := inv.first
    have used := inv.used
    refine ⟨ready listenfd, ?_⟩
    simp [pollWait_getElem, here, show 0 < s.numfd by omega]
  used := inv.used
  scans := inv.scans
  aligned j low high := by
    obtain ⟨entry, kept⟩ := inv.aligned j low high
    refine ⟨{ entry with revents := ready entry.fd }, ?_, kept.connected, kept.known⟩
    simp [pollWait_getElem, kept.here, high]
  distinct j k entry other lowJ highJ lowK highK here there same := by
    simp only [pollWait_getElem, highJ, highK, if_true, Option.map_eq_some_iff] at here there
    obtain ⟨oldJ, hereOld, rfl⟩ := here
    obtain ⟨oldK, thereOld, rfl⟩ := there
    exact inv.distinct j k oldJ oldK lowJ highJ lowK highK hereOld thereOld same

/-- The entries in use are allocated. -/
theorem PollInv.room {listenfd : Int} {s : PollState} (inv : PollInv listenfd s) :
    s.numfd ≤ s.pollfd.length := by
  have used := inv.used
  by_cases alone : s.numfd = 1
  · obtain ⟨revents, here⟩ := inv.first
    have inside := (List.getElem?_eq_some_iff.mp here).1
    omega
  · obtain ⟨entry, kept⟩ := inv.aligned (s.numfd - 1) (by omega) (by omega)
    have inside := (List.getElem?_eq_some_iff.mp kept.here).1
    omega

/-- The `pollfd` array after a connection: the new entry at the end of those in use, the
others as before. -/
theorem pollAccept_getElem {s : PollState} (room : s.numfd ≤ s.pollfd.length) (clifd : Int)
    (uid : Nat) (j : Nat) (within : j ≤ s.numfd) :
    (pollAccept s clifd uid).pollfd[j]? =
      if j = s.numfd then some ⟨clifd, false⟩ else s.pollfd[j]? := by
  have grown : s.numfd <
      (if s.numfd = s.pollfd.length then growPollfd s.pollfd else s.pollfd).length := by
    split
    · simp only [growPollfd, unusedPollFds, nalloc, List.length_append, List.length_replicate]
      omega
    · omega
  have kept : j < s.numfd →
      (if s.numfd = s.pollfd.length then growPollfd s.pollfd else s.pollfd)[j]? =
        s.pollfd[j]? := by
    intro before
    split
    · exact List.getElem?_append_left (by omega)
    · rfl
  show (List.set _ s.numfd _)[j]? = _
  by_cases last : j = s.numfd
  · rw [if_pos last, last, List.getElem?_set_self grown]
  · rw [if_neg last, List.getElem?_set_ne (Ne.symm last), kept (by omega)]

/-- A connection that keeps the arrays aligned. -/
theorem pollAccept_inv {listenfd : Int} {s : PollState} (inv : PollInv listenfd s)
    {clifd : Int} {uid : Nat} (fresh : isOpen s.log clifd = false)
    (kind : (clientAdd s.client clifd uid).1 = s.numfd ∨ (uidAt s s.numfd = some uid ∧
      ((clientAdd s.client clifd uid).1 < s.numfd →
        uidAt s (clientAdd s.client clifd uid).1 = some uid))) :
    PollInv listenfd { pollAccept s clifd uid with pc := .scan 1 } := by
  have used := inv.used
  have at_ := pollAccept_getElem inv.room clifd uid
  -- the descriptors in use are open, so none of them is the new one
  have other : ∀ j entry, AlignedAt s j entry → clifd ≠ entry.fd := by
    intro j entry kept same
    have connected := kept.connected
    rw [← same, fresh] at connected
    contradiction
  have newUser : uidAt { pollAccept s clifd uid with pc := .scan 1 } s.numfd = some uid := by
    rcases kind with same | ⟨ready, -⟩
    · have taken := (clientAdd_spec s.client clifd uid).1
      show (entryAt (clientAdd s.client clifd uid).2 s.numfd).bind Client.uid = _
      rw [← same, taken]
      rfl
    · have written := clientAdd_uid s.client clifd uid s.numfd ready
      simp only [uidAt, pollAccept, written]
      split <;> rfl
  have oldUser : ∀ j, 1 ≤ j → j < s.numfd →
      uidAt { pollAccept s clifd uid with pc := .scan 1 } j = uidAt s j := by
    intro j low high
    obtain ⟨entry, kept⟩ := inv.aligned j low high
    obtain ⟨owner, reported⟩ := acceptedUid_of_open kept.connected
    have set : uidAt s j = some owner := by rw [kept.known, reported]
    have written := clientAdd_uid s.client clifd uid j set
    simp only [uidAt, pollAccept, written]
    split
    · rename_i same
      rcases kind with slot | ⟨-, agrees⟩
      · omega
      · rw [← same] at agrees
        exact (agrees high).symm
    · exact set.symm
  constructor
  case first =>
    obtain ⟨revents, here⟩ := inv.first
    refine ⟨revents, ?_⟩
    show (pollAccept s clifd uid).pollfd[0]? = _
    rw [at_ 0 (by omega), if_neg (by omega), here]
  case used =>
    show 1 ≤ s.numfd + 1
    omega
  case scans =>
    intro i same
    cases same
    exact Nat.le_refl 1
  case aligned =>
    intro j low high
    have within : j ≤ s.numfd := Nat.lt_succ_iff.mp high
    by_cases last : j = s.numfd
    · subst last
      refine ⟨⟨clifd, false⟩, ?_, ?_, ?_⟩
      · show (pollAccept s clifd uid).pollfd[s.numfd]? = _
        rw [at_ s.numfd (Nat.le_refl _), if_pos rfl]
      · simp [pollAccept, isOpen]
      · rw [newUser]
        simp [pollAccept, acceptedUid]
    · obtain ⟨entry, kept⟩ := inv.aligned j low (by omega)
      have apart := other j entry kept
      refine ⟨entry, ?_, ?_, ?_⟩
      · show (pollAccept s clifd uid).pollfd[j]? = _
        rw [at_ j within, if_neg last, kept.here]
      · simp [pollAccept, isOpen, apart, kept.connected]
      · rw [oldUser j low (by omega), kept.known]
        simp [pollAccept, acceptedUid, apart]
  case distinct =>
    intro j k entry second lowJ highJ lowK highK here there same
    have withinJ : j ≤ s.numfd := Nat.lt_succ_iff.mp highJ
    have withinK : k ≤ s.numfd := Nat.lt_succ_iff.mp highK
    change (pollAccept s clifd uid).pollfd[j]? = some entry at here
    change (pollAccept s clifd uid).pollfd[k]? = some second at there
    rw [at_ j withinJ] at here
    rw [at_ k withinK] at there
    -- a position before the last holds an old descriptor, which is not the new one
    have old : ∀ j entry, 1 ≤ j → j < s.numfd → s.pollfd[j]? = some entry →
        clifd ≠ entry.fd := by
      intro j entry low high here
      obtain ⟨found, kept⟩ := inv.aligned j low high
      have both : entry = found := Option.some.inj (here.symm.trans kept.here)
      rw [both]
      exact other j found kept
    by_cases lastJ : j = s.numfd <;> by_cases lastK : k = s.numfd
    · omega
    · rw [if_pos lastJ] at here
      rw [if_neg lastK] at there
      cases here
      exact absurd same (old k second lowK (by omega) there)
    · rw [if_neg lastJ] at here
      rw [if_pos lastK] at there
      cases there
      exact absurd same.symm (old j entry lowJ (by omega) here)
    · rw [if_neg lastJ] at here
      rw [if_neg lastK] at there
      exact inv.distinct j k entry second lowJ (by omega) lowK (by omega) here there same

/-- A departure that keeps the arrays aligned, or ends the process. -/
theorem pollClose_inv {listenfd : Int} {s : PollState} (inv : PollInv listenfd s) {i : Nat}
    {entry : PollFd} (low : 1 ≤ i) (high : i < s.numfd) (kept : AlignedAt s i entry)
    (kind : i = s.numfd - 1 ∨ uidAt s i = uidAt s (s.numfd - 1)) (uid : Option Nat) :
    (pollClose s i entry uid).exit = none → PollInv listenfd (pollClose s i entry uid) := by
  intro stays
  unfold pollClose at stays ⊢
  cases deleted : clientDel s.client entry.fd with
  | none => simp [deleted] at stays
  | some client =>
    simp only [deleted] at stays ⊢
    have sameUid : ∀ j, (entryAt client j).bind Client.uid = uidAt s j := clientDel_uid deleted
    -- another position in use stays connected and known
    have rest : ∀ j other, AlignedAt s j other → 1 ≤ j → j < s.numfd → j ≠ i →
        isOpen (.closed entry.fd uid :: s.log) other.fd = true ∧
          uidAt s j = acceptedUid (.closed entry.fd uid :: s.log) other.fd := by
      intro j other found lowJ highJ apart
      have differs : entry.fd ≠ other.fd := by
        intro same
        have equal := inv.distinct i j entry other low high lowJ highJ kept.here found.here same
        exact apart equal.symm
      exact ⟨by simp [isOpen, differs, found.connected], by simp [acceptedUid, found.known]⟩
    by_cases last : i < s.numfd - 1
    · obtain ⟨tail, moved⟩ := inv.aligned (s.numfd - 1) (by omega) (by omega)
      have length := inv.room
      simp only [last, if_true, moved.here] at stays ⊢
      constructor
      case first =>
        obtain ⟨revents, here⟩ := inv.first
        exact ⟨revents, by simpa [List.getElem?_set_ne (show i ≠ 0 by omega)] using here⟩
      case used =>
        show 1 ≤ s.numfd - 1
        omega
      case scans =>
        intro j same
        cases same
        exact low
      case aligned =>
        intro j lowJ highJ
        change j < s.numfd - 1 at highJ
        by_cases same : j = i
        · subst same
          have fields := rest (s.numfd - 1) tail moved (by omega) (by omega) (by omega)
          refine ⟨tail, ?_, fields.1, ?_⟩
          · exact List.getElem?_set_self (by omega)
          · show (entryAt client j).bind Client.uid = _
            rw [sameUid, kind.resolve_left (by omega)]
            exact fields.2
        · obtain ⟨other, found⟩ := inv.aligned j lowJ (by omega)
          have fields := rest j other found lowJ (by omega) same
          refine ⟨other, ?_, fields.1, ?_⟩
          · show (s.pollfd.set i tail)[j]? = _
            rw [List.getElem?_set_ne (Ne.symm same), found.here]
          · show (entryAt client j).bind Client.uid = _
            rw [sameUid]
            exact fields.2
      case distinct =>
        intro j k first second lowJ highJ lowK highK here there same
        change j < s.numfd - 1 at highJ
        change k < s.numfd - 1 at highK
        -- read an entry of the compacted array in the old one, the moved one at its old place
        have source : ∀ j entry, 1 ≤ j → j < s.numfd - 1 → (s.pollfd.set i tail)[j]? = some entry →
            s.pollfd[if j = i then s.numfd - 1 else j]? = some entry := by
          intro j entry lowJ highJ here
          split
          · rename_i same
            rw [same, List.getElem?_set_self (by omega)] at here
            rw [moved.here, here]
          · rename_i apart
            rw [List.getElem?_set_ne (Ne.symm apart)] at here
            exact here
        have equal := inv.distinct _ _ first second (by split <;> omega) (by split <;> omega)
          (by split <;> omega) (by split <;> omega) (source j first lowJ highJ here)
          (source k second lowK highK there) same
        split at equal <;> split at equal <;> omega
    · simp only [last, if_false] at stays ⊢
      have end_ : i = s.numfd - 1 := by omega
      constructor
      case first => exact inv.first
      case used =>
        show 1 ≤ s.numfd - 1
        omega
      case scans =>
        intro j same
        cases same
        omega
      case aligned =>
        intro j lowJ highJ
        change j < s.numfd - 1 at highJ
        obtain ⟨other, found⟩ := inv.aligned j lowJ (by omega)
        have fields := rest j other found lowJ (by omega) (by omega)
        refine ⟨other, found.here, fields.1, ?_⟩
        show (entryAt client j).bind Client.uid = _
        rw [sameUid]
        exact fields.2
      case distinct =>
        intro j k first second lowJ highJ lowK highK here there same
        change j < s.numfd - 1 at highJ
        change k < s.numfd - 1 at highK
        exact inv.distinct j k first second lowJ (by omega) lowK (by omega) here there same

/-- What holds in every state of an aligned run: every request and close so far carried the
right user, and the arrays are aligned while the process is in the loop. -/
structure PollSafe (listenfd : Int) (s : PollState) : Prop where
  /-- The log is right. -/
  identified : Identified s.log
  /-- The arrays are aligned. -/
  tables : s.exit = none → PollInv listenfd s

/-- One visit of the scan. -/
theorem pollVisit_safe {listenfd : Int} {s : PollState} (safe : PollSafe listenfd s)
    (runs : s.exit = none) {i : Nat} (pc : s.pc = .scan i) (high : i < s.numfd)
    {kernel : Kernel} (kind : KeepsAligned listenfd s kernel) :
    PollSafe listenfd (pollVisit s i kernel.read) := by
  have inv := safe.tables runs
  have low := inv.scans i pc
  obtain ⟨entry, kept⟩ := inv.aligned i low high
  obtain ⟨owner, reported⟩ := acceptedUid_of_open kept.connected
  -- the client array has an entry at this index, with the user of the descriptor
  have known : uidAt s i = some owner := by rw [kept.known, reported]
  obtain ⟨holder, held, user⟩ := Option.bind_eq_some_iff.mp known
  have later : ∀ j, PollPc.scan (i + 1) = .scan j → 1 ≤ j := by
    intro j same
    cases same
    omega
  unfold pollVisit
  simp only [kept.here]
  split
  · rename_i ready
    cases result : kernel.read with
    | failed => exact ⟨safe.identified, fun left => by simp at left⟩
    | hungUp =>
      simp only [held]
      have hangs : HangsUp s kernel i := ⟨pc, high, result, entry, kept.here, ready⟩
      constructor
      · have carried : holder.uid = acceptedUid s.log entry.fd := by rw [user, reported]
        unfold pollClose
        split
        · exact ⟨carried, safe.identified⟩
        · split
          · split <;> exact ⟨carried, safe.identified⟩
          · exact ⟨carried, safe.identified⟩
      · exact pollClose_inv inv low high kept (kind.departure i hangs) holder.uid
    | data buf =>
      simp only [held]
      refine ⟨⟨by rw [user, reported], safe.identified⟩, fun _ => ?_⟩
      have moved := inv.move later
      refine ⟨moved.first, moved.used, moved.scans, ?_, moved.distinct⟩
      intro j lowJ highJ
      obtain ⟨other, found⟩ := moved.aligned j lowJ highJ
      exact ⟨other, found.here, found.connected, found.known⟩
  · exact ⟨safe.identified, fun _ => inv.move later⟩

/-- One step that keeps the arrays aligned. -/
theorem pollStep_safe {listenfd : Int} {s : PollState} (safe : PollSafe listenfd s)
    {kernel : Kernel} (fresh : kernel.Fresh listenfd s.log)
    (kind : KeepsAligned listenfd s kernel) : PollSafe listenfd (pollStep s kernel) := by
  unfold pollStep
  by_cases left : s.exit.isSome
  · rw [if_pos left]
    exact safe
  rw [if_neg left]
  have runs : s.exit = none := by simpa using left
  have inv := safe.tables runs
  cases pc : s.pc with
  | top =>
    have first : ∀ j, PollPc.scan 1 = .scan j → 1 ≤ j := by
      intro j same
      cases same
      omega
    simp only
    by_cases fails : kernel.waitFails
    · rw [if_pos fails]
      exact ⟨safe.identified, fun stays => by simp at stays⟩
    · rw [if_neg fails]
      have waited := pollWait_inv inv kernel.ready
      have used := inv.used
      obtain ⟨revents, here⟩ := inv.first
      have polled : (pollWait s kernel.ready)[0]? = some ⟨listenfd, kernel.ready listenfd⟩ := by
        simp [pollWait_getElem, here, show 0 < s.numfd by omega]
      simp only [polled]
      by_cases ready : kernel.ready listenfd
      · rw [if_pos ready]
        by_cases refused : kernel.clifd < 0
        · rw [if_pos refused]
          exact ⟨safe.identified, fun stays => by simp at stays⟩
        · rw [if_neg refused]
          have accepts : Accepts listenfd s kernel :=
            ⟨pc, by simpa using fails, ready, by omega⟩
          exact ⟨safe.identified, fun _ =>
            pollAccept_inv waited fresh.2 (kind.connection accepts)⟩
      · rw [if_neg ready]
        exact ⟨safe.identified, fun _ => waited.move first⟩
  | scan i =>
    simp only
    by_cases high : i < s.numfd
    · rw [if_pos high]
      exact pollVisit_safe safe runs pc high kind
    · rw [if_neg high]
      exact ⟨safe.identified, fun _ => inv.move (fun j same => by cases same)⟩

/-- Every state of a run whose steps keep the arrays aligned is safe. -/
theorem pollReaches_safe {listenfd : Int} {s : PollState}
    (reached : PollReaches listenfd (KeepsAligned listenfd) s) : PollSafe listenfd s := by
  induction reached with
  | start => exact ⟨trivial, fun _ => pollStart_inv listenfd⟩
  | step kernel _ fresh kind safe => exact pollStep_safe safe fresh kind

/-- In every run of the `poll` loop whose steps keep the two arrays aligned, every request
and every close carries the user that `serv_accept` reported for its descriptor. -/
theorem poll_identifies_aligned (listenfd : Int) (s : PollState)
    (reached : PollReaches listenfd (KeepsAligned listenfd) s) : Identified s.log :=
  (pollReaches_safe reached).identified

/-- A sufficient check of `KeepsAligned`: a client is put at its own position, and only the
client that stands last leaves. The kernel returns a descriptor that is not open. -/
def freshAligned (listenfd : Int) (s : PollState) (kernel : Kernel) : Bool :=
  decide (kernel.Fresh listenfd s.log) &&
    match s.pc with
    | .top =>
      decide (kernel.clifd < 0 ∨ (clientAdd s.client kernel.clifd kernel.uid).1 = s.numfd)
    | .scan i => decide (kernel.read ≠ .hungUp ∨ i = s.numfd - 1)

/-- The check is sufficient. -/
theorem keepsAligned_of_check {listenfd : Int} {s : PollState} {kernel : Kernel}
    (passes : freshAligned listenfd s kernel = true) :
    kernel.Fresh listenfd s.log ∧ KeepsAligned listenfd s kernel := by
  obtain ⟨fresh, kind⟩ := Bool.and_eq_true_iff.mp passes
  refine ⟨of_decide_eq_true fresh, fun accepts => ?_, fun i hangs => ?_⟩
  · obtain ⟨pc, -, -, valid⟩ := accepts
    rw [pc] at kind
    rcases of_decide_eq_true kind with refused | own
    · omega
    · exact Or.inl own
  · obtain ⟨pc, -, hungUp, -⟩ := hangs
    rw [pc] at kind
    rcases of_decide_eq_true kind with reads | last
    · exact absurd hungUp reads
    · exact Or.inl last

/-- What the kernel does while descriptors 4 of user 100 and 5 of user 200 connect, 5 hangs up, 4
sends one byte and hangs up. -/
def requestThenDepart : List Kernel :=
  [ ⟨false, fun fd => fd = 3, 4, 100, .failed⟩,
    ⟨false, fun _ => false, -1, 0, .failed⟩,
    ⟨false, fun _ => false, -1, 0, .failed⟩,
    ⟨false, fun fd => fd = 3, 5, 200, .failed⟩,
    ⟨false, fun _ => false, -1, 0, .failed⟩,
    ⟨false, fun _ => false, -1, 0, .failed⟩,
    ⟨false, fun _ => false, -1, 0, .failed⟩,
    ⟨false, fun fd => fd = 5, -1, 0, .failed⟩,
    ⟨false, fun _ => false, -1, 0, .failed⟩,
    ⟨false, fun _ => false, -1, 0, .hungUp⟩,
    ⟨false, fun _ => false, -1, 0, .failed⟩,
    ⟨false, fun fd => fd = 4, -1, 0, .failed⟩,
    ⟨false, fun _ => false, -1, 0, .data [0]⟩,
    ⟨false, fun _ => false, -1, 0, .failed⟩,
    ⟨false, fun fd => fd = 4, -1, 0, .failed⟩,
    ⟨false, fun _ => false, -1, 0, .hungUp⟩ ]

/-- These steps are an aligned run. -/
theorem poll_identifies_two_connections :
    ∃ s, PollReaches 3 (KeepsAligned 3) s ∧
      s.log = [.closed 4 (some 100), .request [0] 4 (some 100), .closed 5 (some 200),
        .accepted 5 200, .accepted 4 100] ∧ Identified s.log := by
  have run : ∃ s, runChecked pollStep (freshAligned 3) (pollStart 3) requestThenDepart = some s ∧
      s.log = [.closed 4 (some 100), .request [0] 4 (some 100), .closed 5 (some 200),
        .accepted 5 200, .accepted 4 100] := ⟨_, rfl, rfl⟩
  obtain ⟨s, steps, log⟩ := run
  have reached : PollReaches 3 (KeepsAligned 3) s := by
    refine runChecked_keeps (fun s kernel passes now => ?_) requestThenDepart .start steps
    obtain ⟨fresh, kind⟩ := keepsAligned_of_check passes
    exact .step kernel now fresh kind
  exact ⟨s, reached, log, poll_identifies_aligned 3 s reached⟩

/-- What the kernel does while descriptors 4 of user 100 and 5 of user 200 connect, 4 hangs
up, and 5 sends one byte. -/
def departThenRequest : List Kernel :=
  [ ⟨false, fun fd => fd = 3, 4, 100, .failed⟩,
    ⟨false, fun _ => false, -1, 0, .failed⟩,
    ⟨false, fun _ => false, -1, 0, .failed⟩,
    ⟨false, fun fd => fd = 3, 5, 200, .failed⟩,
    ⟨false, fun _ => false, -1, 0, .failed⟩,
    ⟨false, fun _ => false, -1, 0, .failed⟩,
    ⟨false, fun _ => false, -1, 0, .failed⟩,
    ⟨false, fun fd => fd = 4, -1, 0, .failed⟩,
    ⟨false, fun _ => false, -1, 0, .hungUp⟩,
    ⟨false, fun _ => false, -1, 0, .failed⟩,
    ⟨false, fun _ => false, -1, 0, .failed⟩,
    ⟨false, fun fd => fd = 5, -1, 0, .failed⟩,
    ⟨false, fun _ => false, -1, 0, .data [0]⟩ ]

/-- After a departure the request of user 200 on descriptor 5 is handled as one of user
100. -/
theorem poll_misidentifies :
    ∃ s, PollReaches 3 (fun _ _ => True) s ∧ ¬ Identified s.log ∧
      s.log.head? = some (.request [0] 5 (some 100)) ∧ acceptedUid s.log 5 = some 200 := by
  have run : ∃ s, runChecked pollStep (fun s kernel => decide (kernel.Fresh 3 s.log))
      (pollStart 3) departThenRequest = some s ∧ ¬ Identified s.log ∧
      s.log.head? = some (.request [0] 5 (some 100)) ∧ acceptedUid s.log 5 = some 200 :=
    ⟨_, rfl, by decide, by decide, by decide⟩
  obtain ⟨s, steps, wrong, request, owner⟩ := run
  refine ⟨s, ?_, wrong, request, owner⟩
  exact runChecked_keeps (fun s kernel passes now =>
    .step kernel now (of_decide_eq_true passes) trivial) departThenRequest .start steps

end CodeLearning.OpenServer
