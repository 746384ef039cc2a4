import CodeLearning.Db.Pointer
import CodeLearning.Db.Scan

/-!
# Look-ups during a scan

`db_nextrec` goes on from the file offset of the handle, and `db_fetch` moves it: to the end of
the last record that the look-up reads, or into the hash table when the chain is empty. A scan
with calls of `db_fetch` in between returns what it returns without them as long as each look-up
before a `db_nextrec` ends where the scan goes on, up to records that `db_nextrec` passes over.
-/

namespace CodeLearning

namespace Db

open FileProgram ByteFile Decimal LinkedList

/-! ## Where a look-up ends -/

/-- The length of the index record at an offset, its two fixed fields not counted. -/
def lineLength (files : File → Bytes) (o : Nat) : Nat :=
  sizeT (atol (readAt (files .idx) (o + ptrSz) idxlenSz))

/-- The key of the index record at an offset, if it can be read. -/
def keyAt (files : File → Bytes) (o : Nat) : Option Bytes :=
  match parseIdx (readAt (files .idx) (o + (ptrSz + idxlenSz)) (lineLength files o)).dropLast with
  | .error _ => none
  | .ok fields => some fields.key

/-- `db_nextrec` returns the index record at an offset: its key is not made of blanks. -/
def liveAt (files : File → Bytes) (o : Nat) : Bool :=
  match keyAt files o with
  | none => false
  | some key => key.any fun c => c ≠ space

/-- The offsets of the index records from an offset on that `db_nextrec` returns. -/
def liveFrom (files : File → Bytes) : Nat → Nat → List Nat
  | 0, _ => []
  | fuel + 1, off =>
    if off < (files .idx).length then
      let rest := liveFrom files fuel (off + (ptrSz + idxlenSz + lineLength files off))
      if liveAt files off then off :: rest else rest
    else []

/-- The offsets of the records that a scan returns. -/
def liveOffsets (files : File → Bytes) : List Nat := liveFrom files (files .idx).length tableEnd

/-- The offset of the last record that a look-up reads from an offset on, when it has read the one
at `last` before. -/
def lookupFrom (files : File → Bytes) (key : Bytes) : Nat → Nat → Nat → Nat
  | 0, _, last => last
  | fuel + 1, o, last =>
    if o = 0 then last
    else if keyAt files o = some key then o
    else lookupFrom files key fuel (pointerAt files o) o

/-- The offset of the last record that the look-up of a key reads: that of the key, or else the
last one of the chain, or `0` when the chain is empty. -/
def lookupEnd (files : File → Bytes) (key : Bytes) : Nat :=
  lookupFrom files key ptrMax (pointerAt files (Place.chain (bucket key)).off) 0

/-- The records that a scan returns behind the end of the look-up are those that it has not returned
after so many calls of `db_nextrec`. -/
def Resumes (files : File → Bytes) (n : Nat) (key : Bytes) : Prop :=
  lookupEnd files key ≠ 0 ∧
    (liveOffsets files).filter (fun o => lookupEnd files key < o) = (liveOffsets files).drop n

/-- Whether the scan goes on can be decided. -/
instance (files : File → Bytes) (n : Nat) (key : Bytes) : Decidable (Resumes files n key) :=
  inferInstanceAs (Decidable (_ ∧ _))

section Reading

variable {files : File → Bytes} {w : World Unit File Note} {db : DB} {o off last fuel : Nat}
  {slot : Slot} {rest : List (Nat × Slot)} {key : Bytes}

/-- The parts of a record stand one after the other. -/
theorem Stands.parts (stands : Stands files o slot) :
    Holds (files .idx) o (ptrText slot.ptr) ∧
      Holds (files .idx) (o + ptrSz) (padLeft idxlenSz (decimal slot.line.length)) ∧
      Holds (files .idx) (o + (ptrSz + idxlenSz)) slot.line := by
  have text := stands.index
  have width := length_ptrText stands.valid.ptr_le
  rw [Slot.text, holds_append] at text
  obtain ⟨fixed, line⟩ := text
  rw [stands.valid.length_fixed] at line
  rw [Slot.fixed, holds_append, width] at fixed
  exact ⟨fixed.1, fixed.2, line⟩

/-- The length that stands in a record. -/
theorem Stands.lineLength_eq (stands : Stands files o slot) :
    lineLength files o = slot.line.length := by
  have read := stands.parts.2.1.readAt_eq
  rw [length_lenText stands.valid.line_le] at read
  rw [lineLength, read, atol_padLeft]
  have small := stands.valid.line_le
  apply sizeT_ofNat
  unfold idxlenMax at small
  omega

/-- The key that stands in a record. -/
theorem Stands.keyAt_eq (stands : Stands files o slot) : keyAt files o = some slot.key := by
  rw [keyAt, stands.lineLength_eq, stands.parts.2.2.readAt_eq,
    stands.valid.parseIdx_line stands.plain]

/-- The offsets of the live records ahead. -/
theorem Ahead.liveFrom_eq (ahead : Ahead files off rest) (enough : rest.length ≤ fuel) :
    liveFrom files fuel off = (rest.filter live).map Prod.fst := by
  induction rest generalizing off fuel with
  | nil =>
    have atEnd : ¬ off < (files .idx).length := Nat.not_lt.mpr (Nat.le_of_eq (Eq.symm ahead))
    cases fuel with
    | zero => rfl
    | succ fuel => rw [liveFrom, if_neg atEnd]; rfl
  | cons record rest before =>
    obtain ⟨fuel, rfl⟩ := Nat.exists_eq_succ_of_ne_zero (Nat.ne_zero_of_lt enough)
    obtain ⟨o, slot⟩ := record
    obtain ⟨rfl, stands, later⟩ := ahead
    have inside : o < (files .idx).length := by
      have bound := later.length_le
      rw [stands.valid.length_text] at bound
      simp only [ptrSz] at bound
      omega
    have isLive : liveAt files o = live (o, slot) := by
      rw [liveAt, stands.keyAt_eq]
      rfl
    rw [stands.valid.length_text] at later
    rw [Nat.succ_eq_add_one, liveFrom, if_pos inside, stands.lineLength_eq,
      before later (Nat.le_of_succ_le_succ enough), isLive]
    cases found : live (o, slot) with
    | true => rw [List.filter_cons_of_pos found]; rfl
    | false => rw [List.filter_cons_of_neg (by simp [found])]; rfl

/-- The file offset of the handle is the end of the record at an offset; `0` says nothing. -/
def EndsAt (records : List (Nat × Slot)) (db : DB) (o : Nat) : Prop :=
  o ≠ 0 → ∃ slot, (o, slot) ∈ records ∧ db.idxpos = o + slot.text.length

end Reading

/-! ## Scans with look-ups -/

/-- A call during a scan. -/
inductive ScanStep where
  /-- `db_nextrec`. -/
  | next
  /-- `db_fetch`. -/
  | fetch (key : CString)
  deriving DecidableEq

/-- The call. -/
def ScanStep.call : ScanStep → Call
  | .next => .nextrec
  | .fetch key => .request (.fetch key)

/-- Where the handle stands during a scan of the records: at the records that `n` calls of
`db_nextrec` have left, or at the end of the last look-up since. -/
def Placed (files : File → Bytes) (records : List (Nat × Slot)) (n : Nat) (db : DB) :
    Option CString → Prop
  | none => ∃ rest, Ahead files db.idxpos rest ∧ rest.length ≤ records.length ∧
    rest.filter live = (records.filter live).drop n
  | some key => EndsAt records db (lookupEnd files key.bytes)

section Scan

variable {files : File → Bytes} {db : DB} {records : List (Nat × Slot)} {fuel n off : Nat}
  {steps : List ScanStep}

/-- Records ahead stand in the files. -/
theorem Ahead.stands (ahead : Ahead files off records) :
    ∀ o slot, (o, slot) ∈ records → Stands files o slot := by
  induction records generalizing off with
  | nil => exact fun o slot mem => absurd mem List.not_mem_nil
  | cons record records rest =>
    obtain ⟨o', slot'⟩ := record
    obtain ⟨-, stands, later⟩ := ahead
    intro o slot mem
    rcases List.mem_cons.mp mem with same | inRest
    · cases same
      exact stands
    · exact rest later o slot inRest

/-- The records behind one of those ahead. -/
theorem Ahead.behind {o : Nat} {slot : Slot} (ahead : Ahead files off records)
    (mem : (o, slot) ∈ records) :
    ∃ rest, Ahead files (o + slot.text.length) rest ∧ rest <:+ records ∧
      rest = records.filter fun record => o < record.1 := by
  induction records generalizing off with
  | nil => cases mem
  | cons record records rest =>
    obtain ⟨o', slot'⟩ := record
    obtain ⟨rfl, stands, later⟩ := ahead
    have positive : 0 < slot'.text.length := by
      rw [stands.valid.length_text]
      simp only [ptrSz]
      omega
    rcases List.mem_cons.mp mem with same | inRest
    · cases same
      refine ⟨records, later, List.suffix_cons _ _, ?_⟩
      rw [List.filter_cons_of_neg (by simp), List.filter_eq_self.mpr]
      rintro ⟨o', slot'⟩ inRest
      have past := later.le inRest
      exact decide_eq_true (by omega)
    · obtain ⟨behind, ahead', suffix, isFilter⟩ := rest later inRest
      have past := later.le inRest
      refine ⟨behind, ahead', suffix.trans (List.suffix_cons _ _), ?_⟩
      rw [isFilter, List.filter_cons_of_neg]
      simp only [decide_eq_true_eq]
      omega

/-- Two ends of a list of the same length are the same. -/
theorem eq_of_suffix {α : Type} {first second whole : List α} (one : first <:+ whole)
    (two : second <:+ whole) (same : first.length = second.length) : first = second :=
  (List.suffix_of_suffix_length_le one two (Nat.le_of_eq same)).eq_of_length same

/-- A look-up that ends where the scan goes on. -/
theorem Resumes.ahead {key : Bytes} (resumes : Resumes files n key)
    (ahead : Ahead files tableEnd records) (ends : EndsAt records db (lookupEnd files key)) :
    ∃ rest, Ahead files db.idxpos rest ∧ rest.length ≤ records.length ∧
      rest.filter live = (records.filter live).drop n := by
  obtain ⟨nonempty, same⟩ := resumes
  obtain ⟨slot, mem, position⟩ := ends nonempty
  obtain ⟨rest, behind, suffix, isFilter⟩ := ahead.behind mem
  have offsets : liveOffsets files = (records.filter live).map Prod.fst :=
    ahead.liveFrom_eq (by have := ahead.length_le; omega)
  refine ⟨rest, position ▸ behind, suffix.length_le, ?_⟩
  apply eq_of_suffix (suffix.filter live) (List.drop_suffix n _)
  have lengths := congrArg List.length same
  rw [offsets, List.filter_map, List.length_map, List.length_drop, List.length_map,
    ← List.length_drop] at lengths
  rw [← lengths, isFilter, List.filter_comm]
  rfl

end Scan

end Db

end CodeLearning
