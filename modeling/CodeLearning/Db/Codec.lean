import CodeLearning.Db.Record

/-!
# Writing and reading an index record

`_db_writeidx` writes a key, two numbers and the lengths as text and checks the pointer and the
length of the record. `_db_readidx` takes the text apart again. What it checks is more: a key with
a separator makes a record that cannot be read, and so do a negative data offset and a data length
that no data record has. `db_nextrec` takes a key of blanks for the mark of a free record.
-/

namespace CodeLearning

namespace Db

open FileProgram ByteFile Decimal

/-! ## Reading a record -/

section Reading

variable {db : DB} {w : World Unit File Note} {fixed line : Bytes} {o : Nat} {offset : Int}

/-- The record at an offset is asked for: by its offset, or as the next one. -/
def AsksFor (db : DB) (offset : Int) (o : Nat) : Prop :=
  (offset = 0 ∧ db.idxpos = o) ∨ (offset = o ∧ offset ≠ 0)

/-- The handle after `_db_readidx` has read a record at an offset. -/
def readBack (db : DB) (o : Nat) (fixed line : Bytes) (fields : IdxFields) : DB :=
  { db with
    idxpos := o + (fixed ++ line).length
    idxoff := o
    idxlen := line.length
    ptrval := atol (fixed.take ptrSz)
    idxbuf := fields.key
    datoff := fields.datoff
    datlen := fields.datlen }

/-- A read of the index file and what follows it. -/
theorem run_readIdx_bind {α : Type} (db : DB) (len : Nat) (w : World Unit File Note)
    (f : Bytes × DB → DbProg α) :
    run () (readIdx db len >>= f) w =
      run () (f (readAt (w.files .idx) db.idxpos len,
        { db with idxpos := db.idxpos + (readAt (w.files .idx) db.idxpos len).length })) w := rfl

/-- A check that does not fail. -/
theorem errDumpIf_bind {α : Type} {condition : Prop} [Decidable condition] {text : String}
    (fine : ¬ condition) (f : Unit → DbProg α) : (errDumpIf condition text >>= f) = f () := by
  rw [errDumpIf, if_neg fine]
  rfl

/-- `_db_readidx` of a record that stands at an offset. -/
theorem run_readidx (asks : AsksFor db offset o) (holds : Holds (w.files .idx) o (fixed ++ line))
    (width : fixed.length = ptrSz + idxlenSz)
    (len : sizeT (atol (fixed.drop ptrSz)) = line.length) (low : idxlenMin ≤ line.length)
    (high : line.length ≤ idxlenMax) (last : line.getLast? = some newline) :
    run () (dbReadidx db offset) w =
      match parseIdx line.dropLast with
      | .error text => (.aborted (.errDump text), w)
      | .ok fields =>
        (.returned (atol (fixed.take ptrSz), readBack db o fixed line fields), w) := by
  have seek : seekRecord db offset = .ret { db with idxpos := o } := by
    rcases asks with ⟨rfl, rfl⟩ | ⟨rfl, ne⟩
    · rfl
    · have forward : ¬ (o : Int) < 0 := by omega
      rw [seekRecord, if_neg ne, seekIdx, if_neg forward, Int.toNat_natCast]
  obtain ⟨here, there⟩ := holds_append.mp holds
  have first : readAt (w.files .idx) o (ptrSz + idxlenSz) = fixed := width ▸ here.readAt_eq
  have second : readAt (w.files .idx) (o + fixed.length) line.length = line := there.readAt_eq
  rw [dbReadidx, seek, Prog.ret_bind, run_readIdx_bind]
  simp only [first, width, ne_eq, not_true, if_false]
  rw [readidxLine, errDumpIf_bind (by simp only [len]; omega), run_readIdx_bind]
  simp only [len, ← width, second]
  rw [errDumpIf_bind (by simp), errDumpIf_bind (by simp [last])]
  cases parseIdx line.dropLast with
  | error text => rfl
  | ok fields =>
    simp only [readBack, List.length_append, Nat.add_assoc]
    rfl

/-- `_db_readidx` of the next record, which can be read, in the loop of `db_nextrec`. -/
theorem run_nextrecLoop {fields : IdxFields} {fuel : Nat} (here : db.idxpos = o)
    (holds : Holds (w.files .idx) o (fixed ++ line)) (width : fixed.length = ptrSz + idxlenSz)
    (len : sizeT (atol (fixed.drop ptrSz)) = line.length) (low : idxlenMin ≤ line.length)
    (high : line.length ≤ idxlenMax) (last : line.getLast? = some newline)
    (ptr : 0 ≤ atol (fixed.take ptrSz)) (parsed : parseIdx line.dropLast = .ok fields) :
    run () (nextrecLoop (fuel + 1) db) w =
      if ∀ c ∈ fields.key, c = space then
        run () (nextrecLoop fuel (readBack db o fixed line fields)) w
      else (.returned (true, readBack db o fixed line fields), w) := by
  rw [nextrecLoop, run_bind, run_readidx (Or.inl ⟨rfl, here⟩) holds width len low high last, parsed]
  simp only [if_neg (Int.not_lt.mpr ptr)]
  have key : (readBack db o fixed line fields).idxbuf = fields.key := rfl
  rw [key]
  split
  · rfl
  · rfl

end Reading

/-! ## Writing a record -/

section Writing

variable {db db' : DB} {w w' : World Unit File Note} {key : Bytes} {offset ptrval : Int}
  {whence : Whence}

/-- The fixed fields that `_db_writeidx` puts in front of a record. -/
def fixedText (ptrval : Int) (line : Bytes) : Bytes :=
  padLeft ptrSz (lld ptrval) ++ padLeft idxlenSz (decimal line.length)

/-- What `_db_writeidx` has checked and written when it returns. -/
structure Written (db db' : DB) (key : Bytes) (ptrval : Int) (idx : Bytes) : Prop where
  /-- The pointer fits. -/
  ptr : 0 ≤ ptrval ∧ ptrval ≤ ptrMax
  /-- The record is not too short. -/
  low : idxlenMin ≤ (idxText key db.datoff db.datlen).length
  /-- The record is not too long. -/
  high : (idxText key db.datoff db.datlen).length ≤ idxlenMax
  /-- The record stands at its offset. -/
  holds : Holds idx db'.idxoff.toNat (fixedText ptrval (idxText key db.datoff db.datlen) ++
    idxText key db.datoff db.datlen)

/-- `_db_writeidx` that returns has written the record. -/
theorem writeidx_written
    (ends : run () (dbWriteidx db key offset whence ptrval) w = (.returned db', w')) :
    Written db db' key ptrval (w'.files .idx) := by
  unfold dbWriteidx at ends
  by_cases ptr : ptrval < 0 ∨ ptrval > ptrMax
  · simp [errQuitUnlessPtr, ptr, run] at ends
  by_cases len : (idxText key db.datoff db.datlen).length < idxlenMin ∨
      (idxText key db.datoff db.datlen).length > idxlenMax
  · simp [errQuitUnlessPtr, ptr, errDumpIf, len, run] at ends
  simp only [errQuitUnlessPtr, ptr, if_false, Prog.ret_bind, errDumpIf_bind len] at ends
  refine ⟨by omega, by omega, by omega, ?_⟩
  cases whence with
  | set =>
    simp only [whenEnd, Prog.ret_bind, seekTo] at ends
    by_cases negative : offset < 0
    · simp [negative, run] at ends
    · simp only [negative, if_false, Prog.ret_bind] at ends
      obtain ⟨same, world⟩ := Prod.mk.inj ends
      obtain rfl := Outcome.returned.inj same
      subst world
      exact holds_writeAt _ _ _
  | end_ =>
    obtain ⟨same, world⟩ := Prod.mk.inj ends
    obtain rfl := Outcome.returned.inj same
    subst world
    exact holds_writeAt _ _ _

/-- The fixed fields have their width, and read back. -/
theorem fixedText_fields {line : Bytes} (ptr : 0 ≤ ptrval ∧ ptrval ≤ ptrMax)
    (high : line.length ≤ idxlenMax) :
    (fixedText ptrval line).length = ptrSz + idxlenSz ∧
      atol ((fixedText ptrval line).take ptrSz) = ptrval ∧
      sizeT (atol ((fixedText ptrval line).drop ptrSz)) = line.length := by
  obtain ⟨n, rfl⟩ := Int.eq_ofNat_of_zero_le ptr.1
  have small : n ≤ ptrMax := by omega
  have first := length_ptrText small
  have second := length_lenText high
  rw [fixedText, lld_ofNat]
  refine ⟨?_, ?_, ?_⟩
  · rw [List.length_append, ← ptrText, first, second]
  · rw [← ptrText, ← first, List.take_left, atol_ptrText]
  · rw [← ptrText, ← first, List.drop_left, atol_padLeft]
    apply sizeT_ofNat
    unfold idxlenMax at high
    omega

/-- The record at an offset reads back by `_db_readidx`, and the loop of `db_nextrec` stops at
it. -/
structure ReadsBack (w : World Unit File Note) (o : Nat) (key : Bytes) (ptrval datoff : Int)
    (datlen : Nat) : Prop where
  /-- `_db_readidx` returns what was written. -/
  readidx : ∀ db offset, AsksFor db offset o → ∃ db',
    run () (dbReadidx db offset) w = (.returned (ptrval, db'), w) ∧ db'.idxbuf = key ∧
      db'.datoff = datoff ∧ db'.datlen = datlen
  /-- It is not taken for a free record. -/
  nextrec : ∀ db fuel, db.idxpos = o → ∃ db',
    run () (nextrecLoop (fuel + 1) db) w = (.returned (true, db'), w) ∧ db'.idxbuf = key

/-- A key, a data offset and a data length that `_db_readidx` can read and that `db_nextrec` does
not take for those of a free record. -/
structure Readable (key : Bytes) (datoff : Int) (datlen : Nat) : Prop where
  /-- There is no separator in the key. -/
  plain : sep ∉ key
  /-- The key is not made of blanks. -/
  visible : ∃ c ∈ key, c ≠ space
  /-- The offset is not negative. -/
  offset : 0 ≤ datoff
  /-- The length is that of a data record. -/
  length : 1 ≤ datlen ∧ datlen ≤ datlenMax

end Writing

/-- For every key string, pointer, data offset and data length that `_db_writeidx` writes without
failing a check: `_db_readidx` reads them back and `db_nextrec` does not take the record for a free
one, exactly when the key has no separator and a byte that is no blank, the data offset is not
negative and the data length is from 1 to `DATLEN_MAX`. -/
theorem writeidx_readidx_iff (db db' : DB) (key : CString) (offset ptrval : Int) (whence : Whence)
    (w w' : World Unit File Note) (isSize : db.datlen < 2 ^ 64)
    (ends : run () (dbWriteidx db key.bytes offset whence ptrval) w = (.returned db', w')) :
    ReadsBack w' db'.idxoff.toNat key.bytes ptrval db.datoff db.datlen ↔
      Readable key.bytes db.datoff db.datlen := by
  obtain ⟨ptr, low, high, holds⟩ := writeidx_written ends
  obtain ⟨width, ptrBack, len⟩ := fixedText_fields ptr high
  have last := getLast?_idxText key.bytes db.datoff db.datlen
  have reads : ∀ reader offset, AsksFor reader offset db'.idxoff.toNat → _ :=
    fun reader offset asks => run_readidx asks holds width len low high last
  constructor
  · rintro ⟨readidx, nextrec⟩
    -- The handle that stands at the record.
    let here : DB := { db with idxpos := db'.idxoff.toNat }
    obtain ⟨after, returned, -⟩ := readidx here 0 (Or.inl ⟨rfl, rfl⟩)
    rw [reads here 0 (Or.inl ⟨rfl, rfl⟩)] at returned
    by_cases separator : sep ∈ key.bytes
    · rw [parseIdx_idxText_sep key.noNul separator] at returned
      cases returned
    rw [parseIdx_idxText key.noNul separator isSize] at returned
    by_cases negative : db.datoff < 0
    · rw [if_pos negative] at returned
      cases returned
    rw [if_neg negative] at returned
    by_cases invalid : db.datlen = 0 ∨ db.datlen > datlenMax
    · rw [if_pos invalid] at returned
      cases returned
    refine ⟨separator, ?_, by omega, by omega⟩
    by_contra blank
    have parsed : parseIdx (idxText key.bytes db.datoff db.datlen).dropLast =
        .ok ⟨key.bytes, db.datoff, db.datlen⟩ := by
      rw [parseIdx_idxText key.noNul separator isSize, if_neg negative, if_neg invalid]
    obtain ⟨after, returned, -⟩ := nextrec here 0 rfl
    rw [run_nextrecLoop rfl holds width len low high last (by omega) parsed,
      if_pos (by simpa using blank)] at returned
    cases returned
  · rintro ⟨plain, visible, nonnegative, valid⟩
    have parsed : parseIdx (idxText key.bytes db.datoff db.datlen).dropLast =
        .ok ⟨key.bytes, db.datoff, db.datlen⟩ := by
      rw [parseIdx_idxText key.noNul plain isSize, if_neg (by omega), if_neg (by omega)]
    refine ⟨?_, ?_⟩
    · intro reader offset asks
      rw [reads reader offset asks, parsed, ptrBack]
      exact ⟨_, rfl, rfl, rfl, rfl⟩
    · intro reader fuel here
      rw [run_nextrecLoop here holds width len low high last (by omega) parsed,
        if_neg (by simpa using visible)]
      exact ⟨_, rfl, rfl⟩

/-- A new database. -/
def newWorld : World Unit File Note where
  files
    | .idx => emptyIndex
    | .dat => []
  locks _ _ _ := none
  log := []

/-- The handle of a new database with a data record of two bytes at its start. -/
def twoBytes : DB := { opened with datlen := 2 }

/-- The key `x`. -/
def plainKey : CString := ⟨[120], by decide⟩

/-- The key `a:b`. -/
def colonKey : CString := ⟨[97, 58, 98], by decide⟩

/-- The key of one blank. -/
def blankKey : CString := ⟨[32], by decide⟩

/-- The record of the key `x` reads back. -/
theorem writeidx_readidx_plain : ∃ db' w',
    run () (dbWriteidx twoBytes plainKey.bytes 0 .end_ 0) newWorld = (.returned db', w') ∧
      ReadsBack w' db'.idxoff.toNat plainKey.bytes 0 0 2 := by
  refine ⟨_, _, rfl, (writeidx_readidx_iff twoBytes _ plainKey 0 0 .end_ newWorld _ (by decide)
    rfl).mpr ⟨by decide, ⟨120, by decide, by decide⟩, by decide, by decide⟩⟩

/-- The record of the key `a:b` is written and cannot be read, and the loop of `db_nextrec` passes
over that of a blank. -/
theorem writeidx_readidx_lost :
    (∃ db' w', run () (dbWriteidx twoBytes colonKey.bytes 0 .end_ 0) newWorld =
        (.returned db', w') ∧
      run () (dbReadidx twoBytes db'.idxoff) w' =
        (.aborted (.errDump "_db_readidx: too many separators"), w') ∧
      ¬ ReadsBack w' db'.idxoff.toNat colonKey.bytes 0 0 2) ∧
    ∃ db' w', run () (dbWriteidx twoBytes blankKey.bytes 0 .end_ 0) newWorld =
        (.returned db', w') ∧
      (∀ fuel reader, reader.idxpos = db'.idxoff.toNat → ∃ reader',
        run () (nextrecLoop (fuel + 1) reader) w' = run () (nextrecLoop fuel reader') w') ∧
      ¬ ReadsBack w' db'.idxoff.toNat blankKey.bytes 0 0 2 := by
  constructor
  · have wrote : ∃ db' w', run () (dbWriteidx twoBytes colonKey.bytes 0 .end_ 0) newWorld =
        (.returned db', w') ∧ db'.idxoff = 967 := ⟨_, _, rfl, by decide +kernel⟩
    obtain ⟨db', w', ends, place⟩ := wrote
    obtain ⟨ptr, low, high, holds⟩ := writeidx_written ends
    obtain ⟨width, -, len⟩ := fixedText_fields ptr high
    have read := fun reader (asks : AsksFor reader db'.idxoff db'.idxoff.toNat) =>
      run_readidx asks holds width len low high (getLast?_idxText _ _ _)
    simp only [parseIdx_idxText_sep colonKey.noNul (show sep ∈ colonKey.bytes by decide)] at read
    have asks : ∀ reader, AsksFor reader db'.idxoff db'.idxoff.toNat :=
      fun reader => Or.inr ⟨by omega, by omega⟩
    refine ⟨db', w', ends, read _ (asks _), fun back => ?_⟩
    obtain ⟨after, returned, -⟩ := back.readidx twoBytes _ (asks _)
    rw [read _ (asks _)] at returned
    cases returned
  · have wrote : ∃ db' w', run () (dbWriteidx twoBytes blankKey.bytes 0 .end_ 0) newWorld =
        (.returned db', w') := ⟨_, _, rfl⟩
    obtain ⟨db', w', ends⟩ := wrote
    obtain ⟨ptr, low, high, holds⟩ := writeidx_written ends
    obtain ⟨width, back, len⟩ := fixedText_fields ptr high
    have parsed : parseIdx (idxText blankKey.bytes twoBytes.datoff twoBytes.datlen).dropLast =
        .ok ⟨blankKey.bytes, 0, 2⟩ := by decide +kernel
    have blank : ∀ c ∈ blankKey.bytes, c = space := fun c mem => List.mem_singleton.mp mem
    have passes : ∀ fuel reader, reader.idxpos = db'.idxoff.toNat → ∃ reader',
        run () (nextrecLoop (fuel + 1) reader) w' = run () (nextrecLoop fuel reader') w' := by
      intro fuel reader here
      rw [run_nextrecLoop here holds width len low high (getLast?_idxText _ _ _) (by omega) parsed,
        if_pos blank]
      exact ⟨_, rfl⟩
    refine ⟨db', w', ends, passes, fun back => ?_⟩
    let here : DB := { twoBytes with idxpos := db'.idxoff.toNat }
    obtain ⟨after, same⟩ := passes 0 here rfl
    obtain ⟨found, returned, -⟩ := back.nextrec here 0 rfl
    rw [same] at returned
    cases returned

end Db

end CodeLearning
