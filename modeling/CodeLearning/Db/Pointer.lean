import CodeLearning.Db.Codec

/-!
# Pointer fields

A pointer is written with blanks before its digits, so that a field of `PTR_SZ` bytes has room for
`PTR_SZ` digits. `_db_writeptr` refuses a pointer above `PTR_MAX`, which has one digit less.
-/

namespace CodeLearning

namespace Db

open FileProgram ByteFile Decimal

variable {db : DB} {w : World Unit File Note} {off v : Nat} {offset : Int}

/-- `_db_readptr` of a field that stands at an offset. -/
theorem run_readptr (here : offset = off) (holds : Holds (w.files .idx) off (ptrText v))
    (small : v ≤ ptrMax) :
    run () (dbReadptr db offset) w =
      (.returned ((v : Int), { db with idxpos := off + ptrSz }), w) := by
  have width := length_ptrText small
  have read : readAt (w.files .idx) off ptrSz = ptrText v := width ▸ holds.readAt_eq
  have forward : ¬ (off : Int) < 0 := by omega
  rw [dbReadptr, here, seekIdx, if_neg forward, Prog.ret_bind, Int.toNat_natCast, run_readIdx_bind]
  simp only [read]
  rw [errDumpIf_bind (by simp [width]), atol_ptrText, width]
  rfl

/-- The world after a field was written. -/
def withField (w : World Unit File Note) (off v : Nat) : World Unit File Note :=
  { w with files := Function.update w.files .idx (writeAt (w.files .idx) off (ptrText v)) }

/-- `_db_writeptr` of a pointer that is not too great. -/
theorem run_writeptr (small : v ≤ ptrMax) :
    run () (dbWriteptr db off v) w =
      (.returned { db with idxpos := off + ptrSz }, withField w off v) := by
  have width := length_ptrText small
  have fits : ¬ ((v : Int) < 0 ∨ (v : Int) > ptrMax) := by omega
  have forward : ¬ (off : Int) < 0 := by omega
  rw [dbWriteptr, errQuitUnlessPtr, if_neg fits, Prog.ret_bind, seekIdx, if_neg forward,
    Prog.ret_bind, lld_ofNat, Int.toNat_natCast, ← ptrText, ← width]
  rfl

/-- `_db_writeptr` of a pointer that is too great. -/
theorem run_writeptr_invalid (great : ptrMax < v) :
    run () (dbWriteptr db offset v) w =
      (.aborted (.errQuit "_db_writeptr: invalid ptr: " v), w) := by
  have refused : (v : Int) < 0 ∨ (v : Int) > ptrMax := by omega
  rw [dbWriteptr, errQuitUnlessPtr, if_pos refused, Prog.abort_bind]
  rfl

/-- A pointer is written into its field and read back. -/
structure KeepsPointer (db : DB) (w : World Unit File Note) (off v : Nat) (db' : DB)
    (w' : World Unit File Note) : Prop where
  /-- `_db_writeptr` accepts the pointer. -/
  returns : run () (dbWriteptr db off v) w = (.returned db', w')
  /-- It writes a field. -/
  field : ∃ bytes, bytes.length = ptrSz ∧ w'.files .idx = writeAt (w.files .idx) off bytes
  /-- The other bytes of the index file are as before. -/
  others : ∀ i, i < off ∨ off + ptrSz ≤ i → (w'.files .idx)[i]? = (w.files .idx)[i]?
  /-- So is the data file. -/
  data : w'.files .dat = w.files .dat
  /-- `_db_readptr` returns the pointer. -/
  reads : ∀ reader, ∃ reader',
    run () (dbReadptr reader off) w' = (.returned ((v : Int), reader'), w')

/-- A pointer that is not too great is kept. -/
theorem keepsPointer_of_le (inside : off ≤ (w.files .idx).length) (small : v ≤ ptrMax) :
    KeepsPointer db w off v { db with idxpos := off + ptrSz } (withField w off v) where
  returns := run_writeptr small
  field := ⟨ptrText v, length_ptrText small, rfl⟩
  others i apart := by
    show (writeAt (w.files .idx) off (ptrText v))[i]? = _
    rw [getElem?_writeAt, length_ptrText small]
    rcases apart with before | behind
    · rw [if_pos before, List.getElem?_append_left (by omega)]
    · rw [if_neg (by omega), if_neg (by omega)]
  data := rfl
  reads _ := ⟨_, run_readptr rfl (holds_writeAt _ _ _) small⟩

/-- For every number, also one that just fits the digits of a field, and every position in the
index file: `_db_writeptr` writes the number there, and nothing else, and `_db_readptr` reads it
back, exactly when the number is at most `PTR_MAX`. -/
theorem writeptr_readptr_iff (db : DB) (w : World Unit File Note) (off v : Nat)
    (inside : off ≤ (w.files .idx).length) :
    (∃ db' w', KeepsPointer db w off v db' w') ↔ v ≤ ptrMax := by
  constructor
  · rintro ⟨db', w', kept⟩
    by_contra great
    have refused := kept.returns
    rw [run_writeptr_invalid (by omega)] at refused
    cases refused
  · intro small
    exact ⟨_, _, keepsPointer_of_le inside small⟩

/-- The greatest pointer that is accepted, in the first field of a new database. -/
theorem writeptr_readptr_greatest : ∃ db' w', KeepsPointer opened newWorld freeOff 999999 db' w' :=
  (writeptr_readptr_iff opened newWorld freeOff 999999 (Nat.zero_le _)).mpr (by decide)

/-- The next number has as many digits as the field, and is refused. -/
theorem writeptr_refuses_seven_digits :
    1000000 < 10 ^ ptrSz ∧ ¬ ∃ db' w', KeepsPointer opened newWorld freeOff 1000000 db' w' := by
  refine ⟨by decide, ?_⟩
  rintro ⟨db', w', kept⟩
  have refused := kept.returns
  rw [run_writeptr_invalid (by decide)] at refused
  cases refused

end Db

end CodeLearning
