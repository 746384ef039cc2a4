import Mathlib.Algebra.GroupWithZero.Nat
import Mathlib.Algebra.Order.BigOperators.Group.Finset
import Mathlib.Data.Fintype.BigOperators
import CodeLearning.Lib.ByteFile

/-!
# The asynchronous rot13 copy

`main` keeps eight buffers, each with an asynchronous operation that reads a block of the input
or writes it, translated, to the output. Operations complete at any time, which is a step of its
own. A buffer whose write is collected stays in `WRITE_PENDING`, so that the next pass over the
buffers collects it again. A run in which no pass ends between the first and the last collected
write counts its operations right and copies the file.
-/

namespace CodeLearning.Aio

open ByteFile

/-- `BSZ`. -/
def bsz : Nat := 4096

/-- `NBUF`. -/
def nbuf : Nat := 8

/-- There are buffers. -/
instance : NeZero nbuf := ⟨by decide⟩

/-- `isalpha` of the C locale. -/
def isalpha (c : UInt8) : Bool := (65 ≤ c && c ≤ 90) || (97 ≤ c && c ≤ 122)

/-- `translate`. -/
def translate (c : UInt8) : UInt8 :=
  if isalpha c then
    if c ≥ 110 then c - 13
    else if c ≥ 97 then c + 13
    else if c ≥ 78 then c - 13
    else c + 13
  else c

/-- `enum rwop`. -/
inductive Rwop where
  /-- `UNUSED`. -/
  | unused
  /-- `READ_PENDING`. -/
  | readPending
  /-- `WRITE_PENDING`. -/
  | writePending
deriving DecidableEq

/-- State of the last operation of a control block. -/
inductive Progress where
  /-- There was none. -/
  | idle
  /-- It is not complete. -/
  | inProgress
  /-- It is complete without error, with this return value. -/
  | complete (ret : Nat)
  /-- `aio_return` was called for it. -/
  | collected (ret : Nat)
deriving DecidableEq

/-- The operation was collected. -/
def Progress.Collected : Progress → Prop
  | .collected _ => True
  | _ => False

/-- Whether an operation is collected can be decided. -/
instance : DecidablePred Progress.Collected
  | .idle => isFalse not_false
  | .inProgress => isFalse not_false
  | .complete _ => isFalse not_false
  | .collected _ => isTrue trivial

/-- `struct buf`, with the control block's entry in `aiolist` and the state of its operation.
The file of the control block is the input or the output, as `op` says. -/
structure Buf where
  /-- `op`. -/
  op : Rwop
  /-- `last`. -/
  last : Bool
  /-- `aio_offset`. -/
  offset : Nat
  /-- `aio_nbytes`. -/
  nbytes : Nat
  /-- `data`. -/
  data : Bytes
  /-- Its operation. -/
  progress : Progress
  /-- Its entry in `aiolist` is not `NULL`. -/
  listed : Bool

/-- Where `main` stands in its loop. -/
inductive Place where
  /-- Before the buffer `i`. -/
  | visiting (i : Fin nbuf)
  /-- After all buffers. -/
  | check
  /-- In `aio_suspend`. -/
  | suspended
  /-- After the loop. -/
  | exited
  /-- Ended by `err_quit` or `err_sys`. -/
  | quit
deriving DecidableEq

/-- The input file, with the size that `fstat` reported. -/
structure InFile where
  /-- Its bytes. -/
  bytes : Bytes
  /-- `st_size`. -/
  stSize : Nat
  /-- The size is right. -/
  sized : bytes.length = stSize

/-- State of the program and of the output file. -/
structure State where
  /-- `bufs`. -/
  bufs : Fin nbuf → Buf
  /-- `numop`. -/
  numop : Int
  /-- `off`. -/
  off : Nat
  /-- The place in the loop. -/
  place : Place
  /-- The output file. -/
  output : Bytes

/-- What `aio_error` and `aio_return` do for an operation that was collected before: POSIX
leaves it open. -/
inductive Again where
  /-- They report the same result once more. -/
  | same
  /-- `aio_error` fails. -/
  | invalid
deriving DecidableEq

/-- What `main` learns of an operation. -/
inductive Report where
  /-- `EINPROGRESS`. -/
  | pending
  /-- No error, and this return value. -/
  | returned (ret : Nat)
  /-- `aio_error` fails. -/
  | failed
deriving DecidableEq

/-- `aio_error` and, when there is no error, `aio_return`. -/
def aioReport (again : Again) : Progress → Report
  | .idle => .failed
  | .inProgress => .pending
  | .complete ret => .returned ret
  | .collected ret =>
    match again with
    | .same => .returned ret
    | .invalid => .failed

/-- The place after a buffer. -/
def afterVisit (i : Fin nbuf) : Place :=
  if more : i.val + 1 < nbuf then .visiting ⟨i.val + 1, more⟩ else .check

/-- The body of the loop over the buffers. -/
def visit (file : InFile) (s : State) (i : Fin nbuf) (again : Again) : State :=
  let b := s.bufs i
  match b.op with
  | .unused =>
    if s.off < file.stSize then
      { s with
        bufs := Function.update s.bufs i { b with
          op := .readPending
          offset := s.off
          last := b.last || decide (s.off + bsz ≥ file.stSize)
          nbytes := bsz
          progress := .inProgress
          listed := true }
        off := s.off + bsz
        numop := s.numop + 1
        place := afterVisit i }
    else { s with place := afterVisit i }
  | .readPending =>
    match aioReport again b.progress with
    | .pending => { s with place := afterVisit i }
    | .failed => { s with place := .quit }
    | .returned n =>
      if n ≠ bsz ∧ b.last = false then { s with place := .quit }
      else
        { s with
          bufs := Function.update s.bufs i { b with
            op := .writePending
            nbytes := n
            data := (b.data.take n).map translate ++ b.data.drop n
            progress := .inProgress }
          place := afterVisit i }
  | .writePending =>
    match aioReport again b.progress with
    | .pending => { s with place := afterVisit i }
    | .failed => { s with place := .quit }
    | .returned n =>
      if n ≠ b.nbytes then { s with place := .quit }
      else
        -- `op` is not set back to `UNUSED`
        { s with
          bufs := Function.update s.bufs i { b with
            progress := .collected n
            listed := false }
          numop := s.numop - 1
          place := afterVisit i }

/-- What follows the loop over the buffers. -/
def checkDone (file : InFile) (s : State) : State :=
  if s.numop = 0 then
    if s.off ≥ file.stSize then { s with place := .exited }
    else { s with place := .visiting 0 }
  else { s with place := .suspended }

/-- `aio_suspend` may return: an operation of the list is not in progress, or the list is
empty. -/
def MayWake (s : State) : Prop :=
  (∃ i, (s.bufs i).listed = true ∧ (s.bufs i).progress ≠ .inProgress) ∨
    ∀ i, (s.bufs i).listed = false

/-- Whether `aio_suspend` may return can be decided. -/
instance (s : State) : Decidable (MayWake s) := inferInstanceAs (Decidable (_ ∨ _))

/-- A step of `main`. -/
def mainStep (file : InFile) (s : State) (again : Again) : State :=
  match s.place with
  | .visiting i => visit file s i again
  | .check => checkDone file s
  | .suspended => if MayWake s then { s with place := .visiting 0 } else s
  | .exited => s
  | .quit => s

/-- The operation of a buffer completes: a read fills the buffer with the bytes at its offset up
to the end of the file, a write puts its bytes in the output. -/
def completeOp (file : InFile) (s : State) (i : Fin nbuf) : State :=
  let b := s.bufs i
  if b.progress = .inProgress then
    match b.op with
    | .unused => s
    | .readPending =>
      { s with
        bufs := Function.update s.bufs i { b with
          data := writeAt b.data 0 (readAt file.bytes b.offset b.nbytes)
          progress := .complete (min b.nbytes (file.stSize - b.offset)) } }
    | .writePending =>
      { s with
        bufs := Function.update s.bufs i { b with progress := .complete b.nbytes }
        output := writeAt s.output b.offset (b.data.take b.nbytes) }
  else s

/-- What happens next. -/
inductive Event where
  /-- `main` takes a step. -/
  | main (again : Again)
  /-- The operation of a buffer completes. -/
  | completes (i : Fin nbuf)
deriving DecidableEq

/-- One step. -/
def step (file : InFile) (s : State) : Event → State
  | .main again => mainStep file s again
  | .completes i => completeOp file s i

/-- A run. -/
def run (file : InFile) (s : State) (events : List Event) : State := events.foldl (step file) s

/-- A buffer before the loop. -/
def freshBuf : Buf := ⟨.unused, false, 0, 0, List.replicate bsz 0, .idle, false⟩

/-- Before the loop. -/
def start : State := ⟨fun _ => freshBuf, 0, 0, .visiting 0, []⟩

/-- An operation is issued and not collected. -/
def Buf.Outstanding (b : Buf) : Prop := b.progress = .inProgress ∨ ∃ n, b.progress = .complete n

/-- Whether an operation is outstanding can be decided. -/
instance (b : Buf) : Decidable b.Outstanding :=
  match shape : b.progress with
  | .idle => isFalse (by simp [Buf.Outstanding, shape])
  | .inProgress => isTrue (Or.inl shape)
  | .complete n => isTrue (Or.inr ⟨n, shape⟩)
  | .collected n => isFalse (by simp [Buf.Outstanding, shape])

/-- The number of buffers with an operation issued and not collected. -/
def outstanding (s : State) : Int := ∑ i, if (s.bufs i).Outstanding then 1 else 0

/-! ## What holds in a run -/

section Run

variable {file : InFile} {s : State} {i : Fin nbuf} {b : Buf} {k : Nat} {output : Bytes}

/-- A block of the input. -/
def block (file : InFile) (j : Nat) : Bytes := readAt file.bytes (bsz * j) bsz

/-- The state of buffer `j`, which takes block `j` if any. -/
inductive BufInv (file : InFile) (output : Bytes) (j : Nat) (b : Buf) : Prop where
  /-- It was not used. -/
  | unused (op : b.op = .unused) (last : b.last = false) (progress : b.progress = .idle)
  /-- The block is being read. -/
  | reading (op : b.op = .readPending) (offset : b.offset = bsz * j)
      (last : b.last = decide (bsz * j + bsz ≥ file.stSize)) (nbytes : b.nbytes = bsz)
      (progress : b.progress = .inProgress)
  /-- The block was read. -/
  | read (op : b.op = .readPending) (offset : b.offset = bsz * j)
      (last : b.last = decide (bsz * j + bsz ≥ file.stSize))
      (data : b.data.take (block file j).length = block file j)
      (progress : b.progress = .complete (block file j).length)
  /-- The translated block is being written. -/
  | writing (op : b.op = .writePending) (offset : b.offset = bsz * j)
      (nbytes : b.nbytes = (block file j).length)
      (data : b.data.take (block file j).length = (block file j).map translate)
      (progress : b.progress = .inProgress)
  /-- The translated block was written, and the write is collected or not. -/
  | written (op : b.op = .writePending) (nbytes : b.nbytes = (block file j).length)
      (progress : b.progress = .complete b.nbytes ∨ b.progress = .collected b.nbytes)
      (holds : Holds output (bsz * j) ((block file j).map translate))

/-- What the place in the loop says of the operations. -/
structure Placed (file : InFile) (s : State) : Prop where
  /-- The program did not give up. -/
  runs : s.place ≠ .quit
  /-- The buffers that are still to be visited were not collected. -/
  ahead : ∀ i, s.place = .visiting i → ∀ j ≥ i, ¬ (s.bufs j).progress.Collected
  /-- Between two passes nothing is collected. -/
  between : s.place = .suspended → ∀ j, ¬ (s.bufs j).progress.Collected
  /-- After the loop everything is collected. -/
  drained : s.place = .exited → outstanding s = 0 ∧ file.stSize ≤ s.off

/-- What holds when no pass ends between the first and the last collected write; the first `k`
buffers are in use. -/
structure Inv (file : InFile) (k : Nat) (s : State) : Prop where
  /-- There are only so many buffers. -/
  small : k ≤ nbuf
  /-- `off` is behind the blocks in use. -/
  off : s.off = bsz * k
  /-- The blocks in use are blocks of the file. -/
  started : ∀ j < k, bsz * j < file.stSize
  /-- Every buffer is in order. -/
  bufs : ∀ i : Fin nbuf, BufInv file s.output i.val (s.bufs i)
  /-- The buffers are used from the front. -/
  used : ∀ i : Fin nbuf, (s.bufs i).op = .unused ↔ k ≤ i.val
  /-- While there are blocks and buffers left, `main` is at the first free buffer. -/
  order : s.off < file.stSize → ∀ free : k < nbuf, s.place = .visiting ⟨k, free⟩
  /-- The operations are counted. -/
  count : s.numop = outstanding s
  /-- The output is no longer than the input. -/
  length : s.output.length ≤ file.stSize
  /-- The place in the loop is right. -/
  placed : Placed file s

/-- If `main` is at the end of a pass and a write is collected, then no operation is outstanding
and the whole file was asked for. -/
def Fine (file : InFile) (s : State) : Event → Prop
  | .main _ => s.place = .check → (∃ i, (s.bufs i).progress.Collected) →
      (∀ i, ¬ (s.bufs i).Outstanding) ∧ file.stSize ≤ s.off
  | .completes _ => True

/-- Whether a step ends a pass too early can be decided. -/
instance (file : InFile) (s : State) : DecidablePred (Fine file s)
  | .main _ => inferInstanceAs (Decidable (_ → _ → _))
  | .completes _ => isTrue trivial

/-- No pass ends between the first and the last collected write. -/
def FineRun (file : InFile) : State → List Event → Prop
  | _, [] => True
  | s, event :: events => Fine file s event ∧ FineRun file (step file s event) events

/-- Whether a run ends a pass too early can be decided. -/
instance (file : InFile) (s : State) (events : List Event) : Decidable (FineRun file s events) :=
  match events with
  | [] => isTrue trivial
  | event :: events =>
    have := instDecidableFineRun file (step file s event) events
    inferInstanceAs (Decidable (_ ∧ _))

/-- Length of a block. -/
theorem length_block (file : InFile) (j : Nat) :
    (block file j).length = min bsz (file.stSize - bsz * j) := by
  simp [block, readAt, file.sized]

/-- Counting after one buffer changes. -/
theorem outstanding_update (s : State) (i : Fin nbuf) (b : Buf) (numop : Int) (off : Nat)
    (place : Place) (output : Bytes) :
    outstanding ⟨Function.update s.bufs i b, numop, off, place, output⟩ =
      outstanding s - (if (s.bufs i).Outstanding then 1 else 0) +
        (if b.Outstanding then 1 else 0) := by
  unfold outstanding
  rw [← Finset.add_sum_erase _ _ (Finset.mem_univ i),
    ← Finset.add_sum_erase Finset.univ (fun j => if (s.bufs j).Outstanding then (1 : Int) else 0)
      (Finset.mem_univ i)]
  have others : ∑ j ∈ Finset.univ.erase i,
      (if (Function.update s.bufs i b j).Outstanding then (1 : Int) else 0) =
        ∑ j ∈ Finset.univ.erase i, if (s.bufs j).Outstanding then (1 : Int) else 0 := by
    apply Finset.sum_congr rfl
    intro j mem
    rw [Function.update_of_ne (Finset.ne_of_mem_erase mem)]
  simp only [Function.update_self, others]
  omega

/-- Nothing is outstanding when the count is zero. -/
theorem not_outstanding (none_ : outstanding s = 0) (i : Fin nbuf) :
    ¬ (s.bufs i).Outstanding := by
  intro some_
  have nonneg : ∀ j ∈ Finset.univ, (0 : Int) ≤ if (s.bufs j).Outstanding then 1 else 0 := by
    intro j _
    split <;> decide
  have zero := (Finset.sum_eq_zero_iff_of_nonneg nonneg).mp none_ i (Finset.mem_univ i)
  simp [some_] at zero

/-- The count is zero when nothing is outstanding. -/
theorem outstanding_eq_zero (none_ : ∀ i, ¬ (s.bufs i).Outstanding) : outstanding s = 0 :=
  Finset.sum_eq_zero fun i _ => if_neg (none_ i)

/-- Before the loop. -/
theorem start_inv (file : InFile) : Inv file 0 start := by
  have idle : ∀ i, ¬ (start.bufs i).Outstanding := by
    intro i
    simp [Buf.Outstanding, start, freshBuf]
  have placed : Placed file start := by
    refine ⟨by simp [start], ?_, by simp [start], by simp [start]⟩
    simp [start, freshBuf, Progress.Collected]
  refine ⟨by decide, rfl, by simp, fun i => .unused rfl rfl rfl, fun i => ?_, fun _ _ => rfl,
    (outstanding_eq_zero idle).symm, Nat.zero_le _, placed⟩
  simp [start, freshBuf]

/-- The place after a buffer is that of the next buffer or the end of the pass. -/
theorem afterVisit_cases (i : Fin nbuf) :
    (∃ later : i.val + 1 < nbuf, afterVisit i = .visiting ⟨i.val + 1, later⟩) ∨
      (i.val + 1 = nbuf ∧ afterVisit i = .check) := by
  unfold afterVisit
  split
  · rename_i later
    exact Or.inl ⟨later, rfl⟩
  · have := i.isLt
    exact Or.inr ⟨by omega, rfl⟩

/-- The place is right after a visit. -/
theorem Placed.visited (placed : Placed file s) (here : s.place = .visiting i) (b : Buf)
    (numop : Int) (off : Nat) :
    Placed file ⟨Function.update s.bufs i b, numop, off, afterVisit i, s.output⟩ := by
  obtain ⟨later, place⟩ | ⟨-, place⟩ := afterVisit_cases i
  · rw [place]
    refine ⟨by simp, ?_, by simp, by simp⟩
    intro next atNext j after
    obtain rfl := Place.visiting.inj atNext
    have behind : i.val < j.val := after
    have other : j ≠ i := fun same => by omega
    simp only [Function.update_of_ne other]
    exact placed.ahead i here j (Nat.le_of_lt behind)
  · rw [place]
    exact ⟨by simp, by simp, by simp, by simp⟩

/-- A property of all buffers when one of them changes. -/
theorem forall_update {motive : Fin nbuf → Buf → Prop} (all : ∀ j, motive j (s.bufs j))
    (changed : motive i b) (j : Fin nbuf) : motive j (Function.update s.bufs i b j) := by
  by_cases same : j = i
  · subst same
    rw [Function.update_self]
    exact changed
  · rw [Function.update_of_ne same]
    exact all j

/-- A visit that keeps its buffer in order, and in use or not, and counts its change keeps the
rest. -/
theorem Inv.visited {numop : Int} (inv : Inv file k s) (here : s.place = .visiting i)
    (settled : s.off < file.stSize → i.val < k) (bufInv : BufInv file s.output i.val b)
    (sameUse : b.op = .unused ↔ (s.bufs i).op = .unused)
    (count : numop = s.numop - (if (s.bufs i).Outstanding then 1 else 0) +
      (if b.Outstanding then 1 else 0)) :
    Inv file k ⟨Function.update s.bufs i b, numop, s.off, afterVisit i, s.output⟩ := by
  refine ⟨inv.small, inv.off, inv.started, forall_update inv.bufs bufInv, ?_, ?_, ?_, inv.length,
    inv.placed.visited here ..⟩
  · exact forall_update (motive := fun j b => b.op = .unused ↔ k ≤ j.val) inv.used
      (sameUse.trans (inv.used i))
  · -- `main` was not at the first free buffer
    intro more free
    have place := inv.order more free
    rw [here] at place
    have same : i = ⟨k, free⟩ := Place.visiting.inj place
    have below := settled more
    rw [same] at below
    exact absurd below (Nat.lt_irrefl k)
  · rw [outstanding_update, ← inv.count]
    exact count

/-- A visit that changes nothing. -/
theorem Inv.skipped (inv : Inv file k s) (here : s.place = .visiting i)
    (settled : s.off < file.stSize → i.val < k) :
    Inv file k { s with place := afterVisit i } := by
  have same := inv.visited here settled (inv.bufs i) Iff.rfl
    (show s.numop = s.numop - (if (s.bufs i).Outstanding then 1 else 0) +
      (if (s.bufs i).Outstanding then 1 else 0) by omega)
  rwa [Function.update_eq_self] at same

/-- A visit of a free buffer that starts to read a block. -/
theorem Inv.issued (inv : Inv file k s) (here : s.place = .visiting i)
    (free : (s.bufs i).op = .unused) (more : s.off < file.stSize)
    (quiet : ¬ (s.bufs i).Outstanding) (op : b.op = .readPending) (offset : b.offset = s.off)
    (last : b.last = decide (s.off + bsz ≥ file.stSize)) (nbytes : b.nbytes = bsz)
    (progress : b.progress = .inProgress) :
    Inv file (k + 1) ⟨Function.update s.bufs i b, s.numop + 1, s.off + bsz, afterVisit i,
      s.output⟩ := by
  have notUsed : k ≤ i.val := (inv.used i).mp free
  have below : k < nbuf := Nat.lt_of_le_of_lt notUsed i.isLt
  have place := inv.order more below
  rw [here] at place
  have first : i.val = k := congrArg Fin.val (Place.visiting.inj place)
  have off : s.off = bsz * i.val := by rw [inv.off, first]
  have busy : b.Outstanding := Or.inl progress
  refine ⟨by omega, ?_, ?_, ?_, ?_, ?_, ?_, inv.length, inv.placed.visited here ..⟩
  · show s.off + bsz = bsz * (k + 1)
    rw [inv.off, Nat.mul_add, Nat.mul_one]
  · intro j below
    rcases Nat.lt_succ_iff_lt_or_eq.mp below with old | new
    · exact inv.started j old
    · rw [new, ← inv.off]
      exact more
  · exact forall_update inv.bufs
      (.reading op (offset.trans off) (off ▸ last) nbytes progress)
  · intro j
    by_cases same : j = i
    · subst same
      simp [first, op]
    · have apart : j.val ≠ i.val := fun equal => same (Fin.ext equal)
      simp only [Function.update_of_ne same]
      rw [inv.used j]
      omega
  · intro _ later
    obtain ⟨_, after⟩ | ⟨stop, -⟩ := afterVisit_cases i
    · simp only [after, first]
    · omega
  · rw [outstanding_update, ← inv.count, if_neg quiet, if_pos busy]
    show s.numop + 1 = s.numop - 0 + 1
    omega

/-- A buffer in use is not the first free one. -/
theorem Inv.in_use (inv : Inv file k s) (used : (s.bufs i).op ≠ .unused) : i.val < k := by
  by_contra free
  exact used ((inv.used i).mpr (by omega))

/-- A short read is the last one. -/
theorem short_is_last {j : Nat} (short : (block file j).length ≠ bsz) :
    bsz * j + bsz ≥ file.stSize := by
  rw [length_block] at short
  omega

/-- The front of a buffer whose first bytes are translated. -/
theorem take_translated {data : Bytes} {j : Nat}
    (filled : data.take (block file j).length = block file j) :
    ((data.take (block file j).length).map translate ++
      data.drop (block file j).length).take (block file j).length =
        (block file j).map translate := by
  rw [filled, List.take_append_of_le_length (by simp), List.take_of_length_le (by simp)]

/-- A visit of a buffer. -/
theorem Inv.visit (inv : Inv file k s) (here : s.place = .visiting i) (again : Again) :
    ∃ k', Inv file k' (visit file s i again) := by
  unfold Aio.visit
  cases inv.bufs i with
  | unused op last progress =>
    simp only [op]
    split
    · rename_i more
      have quiet : ¬ (s.bufs i).Outstanding := by simp [Buf.Outstanding, progress]
      exact ⟨k + 1, inv.issued here op more quiet rfl rfl (by simp [last]) rfl rfl⟩
    · rename_i none_
      exact ⟨k, inv.skipped here fun more => absurd more none_⟩
  | reading op offset last nbytes progress =>
    simp only [op, progress, aioReport]
    exact ⟨k, inv.skipped here fun _ => inv.in_use (by simp [op])⟩
  | read op offset last data progress =>
    simp only [op, progress, aioReport]
    have enough : ¬ ((block file i).length ≠ bsz ∧ (s.bufs i).last = false) := by
      rintro ⟨short, notLast⟩
      rw [last] at notLast
      exact of_decide_eq_false notLast (short_is_last short)
    rw [if_neg enough]
    refine ⟨k, inv.visited here (fun _ => inv.in_use (by simp [op]))
      (.writing rfl offset rfl (take_translated data) rfl) (by simp [op]) ?_⟩
    simp [Buf.Outstanding, progress]
  | writing op offset nbytes data progress =>
    simp only [op, progress, aioReport]
    exact ⟨k, inv.skipped here fun _ => inv.in_use (by simp [op])⟩
  | written op nbytes progress holds =>
    -- the write was not collected in this pass, nor in an earlier one
    have complete : (s.bufs i).progress = .complete (s.bufs i).nbytes := by
      rcases progress with complete | collected
      · exact complete
      · exact absurd (show (s.bufs i).progress.Collected by rw [collected]; trivial)
          (inv.placed.ahead i here i (Nat.le_refl _))
    simp only [op, complete, aioReport, ne_eq, not_true_eq_false, ↓reduceIte]
    refine ⟨k, inv.visited here (fun _ => inv.in_use (by simp [op]))
      (.written rfl nbytes (Or.inr rfl) holds) (by simp [op]) ?_⟩
    simp [Buf.Outstanding, complete]

/-- The end of a pass. -/
theorem Inv.checkDone (inv : Inv file k s) (here : s.place = .check)
    (fine : (∃ i, (s.bufs i).progress.Collected) →
      (∀ i, ¬ (s.bufs i).Outstanding) ∧ file.stSize ≤ s.off) :
    Inv file k (checkDone file s) := by
  have noRoom : s.off < file.stSize → ∀ free : k < nbuf, False := by
    intro more free
    simpa [here] using inv.order more free
  have clean : s.numop ≠ 0 ∨ s.off < file.stSize → ∀ j, ¬ (s.bufs j).progress.Collected := by
    intro unfinished j collected
    obtain ⟨quiet, whole⟩ := fine ⟨j, collected⟩
    have zero := outstanding_eq_zero quiet
    rw [← inv.count] at zero
    omega
  unfold Aio.checkDone
  split
  · rename_i none_
    split
    · rename_i whole
      refine ⟨inv.small, inv.off, inv.started, inv.bufs, inv.used, ?_, inv.count, inv.length, ?_⟩
      · exact fun more free => (noRoom more free).elim
      · exact ⟨by simp, by simp, by simp, fun _ => ⟨inv.count.symm.trans none_, whole⟩⟩
    · rename_i more
      refine ⟨inv.small, inv.off, inv.started, inv.bufs, inv.used, ?_, inv.count, inv.length, ?_⟩
      · exact fun more free => (noRoom more free).elim
      · exact ⟨by simp, fun _ _ j _ => clean (Or.inr (by omega)) j, by simp, by simp⟩
  · rename_i some_
    refine ⟨inv.small, inv.off, inv.started, inv.bufs, inv.used, ?_, inv.count, inv.length, ?_⟩
    · exact fun more free => (noRoom more free).elim
    · exact ⟨by simp, by simp, fun _ => clean (Or.inl some_), by simp⟩

/-- `aio_suspend` returns. -/
theorem Inv.woken (inv : Inv file k s) (here : s.place = .suspended) :
    Inv file k { s with place := .visiting 0 } := by
  refine ⟨inv.small, inv.off, inv.started, inv.bufs, inv.used, ?_, inv.count, inv.length, ?_⟩
  · intro more free
    have place := inv.order more free
    rw [here] at place
    simp at place
  · exact ⟨by simp, fun _ _ j _ => inv.placed.between here j, by simp, by simp⟩

/-- A step of `main`. -/
theorem Inv.mainStep (inv : Inv file k s) {again : Again} (fine : Fine file s (.main again)) :
    ∃ k', Inv file k' (mainStep file s again) := by
  unfold Aio.mainStep
  cases here : s.place with
  | visiting i => exact inv.visit here again
  | check => exact ⟨k, inv.checkDone here (fine here)⟩
  | suspended =>
    dsimp only
    split
    · exact ⟨k, inv.woken here⟩
    · exact ⟨k, inv⟩
  | exited => exact ⟨k, inv⟩
  | quit => exact ⟨k, inv⟩

/-- A completion keeps the rest when it keeps every buffer in order. -/
theorem Inv.completed (inv : Inv file k s) {output : Bytes}
    (busy : (s.bufs i).progress = .inProgress)
    (bufs : ∀ j : Fin nbuf, BufInv file output j.val (Function.update s.bufs i b j))
    (sameOp : b.op = (s.bufs i).op) {n : Nat} (complete : b.progress = .complete n)
    (length : output.length ≤ file.stSize) :
    Inv file k ⟨Function.update s.bufs i b, s.numop, s.off, s.place, output⟩ := by
  have before : (s.bufs i).Outstanding := Or.inl busy
  have after : b.Outstanding := Or.inr ⟨n, complete⟩
  refine ⟨inv.small, inv.off, inv.started, bufs, ?_, inv.order, ?_, length, inv.placed.runs,
    ?_, ?_, ?_⟩
  · exact forall_update (motive := fun j b => b.op = .unused ↔ k ≤ j.val) inv.used
      (sameOp ▸ inv.used i)
  · rw [outstanding_update, ← inv.count, if_pos before, if_pos after]
    show s.numop = s.numop - 1 + 1
    omega
  · intro first here j
    exact forall_update (motive := fun j b => j ≥ first → ¬ b.progress.Collected)
      (inv.placed.ahead first here) (by simp [complete, Progress.Collected]) j
  · intro here
    exact forall_update (motive := fun _ b => ¬ b.progress.Collected)
      (inv.placed.between here) (by simp [complete, Progress.Collected])
  · intro here
    exact absurd before (not_outstanding (inv.placed.drained here).1 i)

/-- A buffer stays in order when another block is written. -/
theorem BufInv.write_other {j m : Nat} {bytes : Bytes} (bufInv : BufInv file output j b)
    (other : j ≠ m) (short : bytes.length ≤ bsz) :
    BufInv file (writeAt output (bsz * m) bytes) j b := by
  cases bufInv with
  | unused op last progress => exact .unused op last progress
  | reading op offset last nbytes progress => exact .reading op offset last nbytes progress
  | read op offset last data progress => exact .read op offset last data progress
  | writing op offset nbytes data progress => exact .writing op offset nbytes data progress
  | written op nbytes progress holds =>
    refine .written op nbytes progress (holds.writeAt_apart ?_)
    rw [List.length_map]
    have within := length_block file j
    rcases Nat.lt_or_gt_of_ne other with before | behind
    · have room : bsz * (j + 1) ≤ bsz * m := Nat.mul_le_mul_left bsz before
      rw [Nat.mul_add, Nat.mul_one] at room
      omega
    · have room : bsz * (m + 1) ≤ bsz * j := Nat.mul_le_mul_left bsz behind
      rw [Nat.mul_add, Nat.mul_one] at room
      omega

/-- The front of a buffer after a block is read into it. -/
theorem take_filled (data bytes : Bytes) : (writeAt data 0 bytes).take bytes.length = bytes := by
  have front := (holds_writeAt data 0 bytes).readAt_eq
  simpa [readAt] using front

/-- The operation of a buffer completes. -/
theorem Inv.completeOp (inv : Inv file k s) (i : Fin nbuf) :
    Inv file k (completeOp file s i) := by
  unfold Aio.completeOp
  dsimp only
  split
  · rename_i busy
    cases inv.bufs i with
    | unused op last progress => simp [progress] at busy
    | reading op offset last nbytes progress =>
      simp only [op]
      have bytes : readAt file.bytes (s.bufs i).offset (s.bufs i).nbytes = block file i := by
        rw [offset, nbytes, block]
      have length : min (s.bufs i).nbytes (file.stSize - (s.bufs i).offset) =
          (block file i).length := by
        rw [length_block, offset, nbytes]
      rw [bytes, length]
      exact inv.completed busy
        (forall_update inv.bufs (.read rfl offset last (take_filled _ _) rfl)) op.symm rfl
        inv.length
    | read op offset last data progress => simp [progress] at busy
    | writing op offset nbytes data progress =>
      simp only [op]
      rw [nbytes, data, offset]
      have within := length_block file i
      refine inv.completed busy ?_ op.symm rfl ?_
      · intro j
        by_cases same : j = i
        · subst same
          rw [Function.update_self]
          exact .written rfl rfl (Or.inl rfl) (holds_writeAt _ _ _)
        · rw [Function.update_of_ne same]
          refine (inv.bufs j).write_other (fun equal => same (Fin.ext equal)) ?_
          rw [List.length_map]
          omega
      · rw [length_writeAt, List.length_map]
        have old := inv.length
        have inUse : i.val < k := inv.in_use (by simp [op])
        have started := inv.started i.val inUse
        omega
    | written op nbytes progress holds =>
      rcases progress with complete | collected
      · simp [complete] at busy
      · simp [collected] at busy
  · exact inv

/-- A step. -/
theorem Inv.step (inv : Inv file k s) {event : Event} (fine : Fine file s event) :
    ∃ k', Inv file k' (step file s event) := by
  cases event with
  | main again => exact inv.mainStep fine
  | completes i => exact ⟨k, inv.completeOp i⟩

/-- A run. -/
theorem Inv.run (inv : Inv file k s) {events : List Event} (fine : FineRun file s events) :
    ∃ k', Inv file k' (run file s events) := by
  induction events generalizing s k with
  | nil => exact ⟨k, inv⟩
  | cons event events rest =>
    obtain ⟨k', next⟩ := inv.step fine.1
    exact rest next fine.2

/-- When everything is collected and the whole file was asked for, every block was written. -/
theorem Inv.holds_blocks (inv : Inv file k s) (none_ : outstanding s = 0)
    (whole : file.stSize ≤ s.off) (j : Nat) (inside : bsz * j < file.stSize) :
    Holds s.output (bsz * j) ((block file j).map translate) := by
  have below : j < k := by
    rw [inv.off] at whole
    exact Nat.lt_of_mul_lt_mul_left (Nat.lt_of_lt_of_le inside whole)
  have within : j < nbuf := Nat.lt_of_lt_of_le below inv.small
  have quiet := not_outstanding none_ ⟨j, within⟩
  cases inv.bufs ⟨j, within⟩ with
  | unused op last progress =>
    have free : k ≤ j := (inv.used ⟨j, within⟩).mp op
    omega
  | reading op offset last nbytes progress => exact absurd (Or.inl progress) quiet
  | read op offset last data progress => exact absurd (Or.inr ⟨_, progress⟩) quiet
  | writing op offset nbytes data progress => exact absurd (Or.inl progress) quiet
  | written op nbytes progress holds => exact holds

/-- A byte of a block. -/
theorem getElem?_block (file : InFile) (j m : Nat) (inside : m < bsz) :
    (block file j)[m]? = file.bytes[bsz * j + m]? := by
  rw [block, readAt, List.getElem?_take_of_lt inside, List.getElem?_drop]

/-- A file that holds every block, translated, and is no longer, is the translated file. -/
theorem eq_translated (length : output.length ≤ file.stSize)
    (blocks : ∀ j, bsz * j < file.stSize →
      Holds output (bsz * j) ((block file j).map translate)) :
    output = file.bytes.map translate := by
  apply List.ext_getElem?
  intro m
  have sized := file.sized
  have split := Nat.div_add_mod m bsz
  have offset : m % bsz < bsz := Nat.mod_lt m (by decide)
  by_cases inside : m < file.stSize
  · have start : bsz * (m / bsz) < file.stSize := by omega
    have within : m % bsz < ((block file (m / bsz)).map translate).length := by
      rw [List.length_map, length_block]
      omega
    have here := blocks (m / bsz) start (m % bsz) within
    rw [split, List.getElem?_map, getElem?_block file _ _ offset, split] at here
    rw [here, List.getElem?_map]
  · rw [List.getElem?_eq_none (by omega), List.getElem?_eq_none (by rw [List.length_map]; omega)]

end Run

/-- In every run in which no pass ends between the first and the last collected write, `main`
does not give up, `numop` counts the operations issued and not collected, `main` visits no
buffer whose operation it collected before, and when the loop exits the output is the input,
translated. -/
theorem rot13_copies (file : InFile) (events : List Event) (fine : FineRun file start events) :
    (run file start events).place ≠ .quit ∧
      (run file start events).numop = outstanding (run file start events) ∧
      (∀ i, (run file start events).place = .visiting i →
        ¬ ((run file start events).bufs i).progress.Collected) ∧
      ((run file start events).place = .exited →
        (run file start events).output = file.bytes.map translate) := by
  obtain ⟨k, inv⟩ := (start_inv file).run fine
  refine ⟨inv.placed.runs, inv.count, fun i here => inv.placed.ahead i here i (Nat.le_refl _),
    fun exited => ?_⟩
  obtain ⟨none_, whole⟩ := inv.placed.drained exited
  exact eq_translated inv.length (inv.holds_blocks none_ whole)

/-- A pass over the buffers with what follows it. -/
def pass : List Event := List.replicate 9 (.main .same)

/-- A file of two blocks. -/
def twoBlocks : InFile := ⟨List.replicate 4097 97, 4097, List.length_replicate⟩

/-- Two blocks are read and written in three passes; the second one is ready first. -/
def secondFirst : List Event :=
  pass ++ [.completes 1, .completes 0, .main .same] ++ pass ++
    [.completes 1, .completes 0, .main .same] ++ pass

/-- The copy of a file of two blocks. -/
theorem rot13_copies_two_blocks :
    FineRun twoBlocks start secondFirst ∧
      (run twoBlocks start secondFirst).output = twoBlocks.bytes.map translate := by
  have fine : FineRun twoBlocks start secondFirst := by decide +kernel
  exact ⟨fine, (rot13_copies twoBlocks secondFirst fine).2.2.2 (by decide +kernel)⟩

/-- The first block is written and collected before the second is read. -/
def firstAhead : List Event :=
  pass ++ [.completes 0, .main .same] ++ pass ++ [.completes 0, .main .same] ++ pass ++
    [.completes 1, .main .same, .main .same]

/-- The write of the first block is collected twice, so `numop` is zero while the second block
is not written; the loop then exits before it is. -/
theorem rot13_collects_twice :
    (run twoBlocks start firstAhead).numop = 0 ∧
      outstanding (run twoBlocks start firstAhead) = 1 ∧
      (run twoBlocks start (firstAhead ++ List.replicate 8 (.main .same))).place = .exited ∧
      ((run twoBlocks start (firstAhead ++ List.replicate 8 (.main .same))).bufs 1).progress =
        .inProgress := by
  decide +kernel

end CodeLearning.Aio
