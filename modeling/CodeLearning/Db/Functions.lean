import CodeLearning.Db.LockRules

/-!
# What the functions of the library do

One lemma for each function of `db.c` that reads or writes the files: from the state its
process knows, to the state it knows afterwards. Each is stated with what follows the
function, so that a caller is proved by applying the lemmas in the order of its calls.
-/

namespace CodeLearning

namespace Db

open FileProgram ByteFile Decimal

variable {P : Type} [DecidableEq P] {α : Type} {g : Setting P} {p : P} {s : State P} {c : Place}
  {o v : Nat} {e : Entry} {post : α → State P → Prop} {fail : Failure → State P → Prop} {db : DB}

/-- A check that passes. -/
theorem errDumpIf_false {condition : Prop} [Decidable condition] {text : String}
    (passes : ¬ condition) : errDumpIf condition text = .ret () := if_neg passes

/-- A check that fails. -/
theorem errDumpIf_true {condition : Prop} [Decidable condition] {text : String}
    (fails : condition) : errDumpIf condition text = .abort (.errDump text) := if_pos fails

/-- A pointer that fits its field. -/
theorem errQuitUnlessPtr_fits {text : String} (small : v ≤ ptrMax) :
    errQuitUnlessPtr v text = .ret () := if_neg (by omega)

/-- A pointer that does not fit its field. -/
theorem errQuitUnlessPtr_large {text : String} (large : ptrMax < v) :
    errQuitUnlessPtr v text = .abort (.errQuit text v) := if_pos (by omega)

/-- A write of the owner of a list that makes the list `A`. -/
structure Edit (s u : State P) (c : Place) (A : Part) : Prop where
  /-- The list. -/
  part : u.part c = A
  /-- Other lists stay. -/
  others : ∀ c', c' ≠ c → u.part c' = s.part c'
  /-- Locks stay. -/
  locks : u.locks = s.locks
  /-- The map stays. -/
  kv : u.kv = s.kv
  /-- The history stays. -/
  hist : u.hist = s.hist
  /-- The log stays. -/
  log : u.log = s.log
  /-- Data outside of records stays. -/
  loose : u.loose = s.loose
  /-- The sizes of the files stay. -/
  sameSize : SameSize s u

omit [DecidableEq P] in
/-- Writing the pointer to the first record. -/
theorem Edit.setHead (same : SameSize s (s.setHead c v)) :
    Edit s (s.setHead c v) c ((s.part c).setHead v) :=
  ⟨part_setHead_self, fun _ differ => part_setHead_other differ, rfl, rfl, rfl, rfl, rfl, same⟩

omit [DecidableEq P] in
/-- Writing bytes that change a record. -/
theorem Edit.setEntry {e' : Entry} {file : File} {off : Nat} {bytes : Bytes}
    (found : (s.part c).entries o = some e) (owner : e'.owner = some c)
    (same : SameSize s (s.setEntry file off bytes o e')) :
    Edit s (s.setEntry file off bytes o e') c ((s.part c).put o e') := by
  refine ⟨?_, ?_, rfl, rfl, rfl, rfl, rfl, same⟩
  · exact part_update_self s (s.setEntry file off bytes o e') rfl rfl owner
  · intro c' differ
    apply part_update_other s (s.setEntry file off bytes o e') rfl rfl
    · rw [owner]
      exact fun eq => differ (Option.some.inj eq).symm
    · exact entries_none_of_ne found differ

omit [DecidableEq P] in
/-- An edit keeps what a process owns. -/
theorem Edit.owns {A : Part} {c' : Place} {u : State P} (edit : Edit s u c A)
    (owns : s.Owns p c') : u.Owns p c' := by
  rw [State.Owns, edit.locks]
  exact owns

/-! ## Reading -/

/-- `_db_readptr` of the pointer to the first record of a locked list. -/
theorem wp_readptr {off : Int} {f : Int × DB → DbProg α} (here : off = c.off)
    (sees : s.Sees p c)
    (next : ∀ pos, g.wp p (f (s.head c, { db with idxpos := pos })) post fail s) :
    g.wp p (dbReadptr db off >>= f) post fail s := by
  apply wp_sound sees
  intro small _
  have notNegative : ¬ (c.off : Int) < 0 := by omega
  have width : (ptrText (s.head c)).length = ptrSz := length_ptrText small
  simp only [dbReadptr, seekIdx, readIdx, Prog.seq_assoc, Prog.read_bind, Prog.op_bind,
    Prog.ret_bind, Prog.pure_eq, here, notNegative, if_false, Int.toNat_natCast]
  apply wp_readHead sees
  rw [errDumpIf_false (by simp only [width]; decide), atol_ptrText]
  exact next _

/-- `_db_readidx` up to the text of the record. -/
theorem wp_readidxLine {off : Int} {f : Int × DB → DbProg α} (here : off = o)
    (sees : s.Sees p c) (found : (s.part c).entries o = some e)
    (next : ∀ pos, e.Valid → g.wp p
      ((match parseIdx e.line.dropLast with
        | .error text => .abort (.errDump text)
        | .ok fields => .ret ((e.ptr : Int),
            { db with
              idxoff := o, idxpos := pos, ptrval := e.ptr, idxlen := e.line.length
              idxbuf := fields.key, datoff := fields.datoff, datlen := fields.datlen })) >>= f)
      post fail s) :
    g.wp p (dbReadidx db off >>= f) post fail s := by
  apply wp_valid sees found
  intro valid past
  have nonzero : ¬ (o : Int) = 0 := by
    simp only [tableEnd, nhashDef, ptrSz] at past
    omega
  have notNegative : ¬ (o : Int) < 0 := by omega
  have inRange : ¬ (e.line.length < idxlenMin ∨ e.line.length > idxlenMax) := by
    have low := valid.line_ge
    have high := valid.line_le
    omega
  simp only [dbReadidx, seekRecord, seekIdx, readIdx, Prog.read_bind, Prog.op_bind,
    Prog.ret_bind, Prog.pure_eq, here, nonzero, notNegative, if_false, Int.toNat_natCast]
  apply wp_readFixed sees found
  simp only [valid.length_fixed, ne_eq, not_true_eq_false, if_false, readidxLine, readIdx,
    valid.atol_ptr, valid.sizeT_len, errDumpIf_false inRange, Prog.seq_assoc, Prog.read_bind,
    Prog.op_bind, Prog.ret_bind, Prog.pure_eq]
  apply wp_readLine sees found
  rw [errDumpIf_false (by simp), Prog.ret_bind, errDumpIf_false (by simp [Slot.getLast?_line]),
    Prog.ret_bind]
  exact next _ valid

/-- `_db_readidx` of a record of a locked list. -/
theorem wp_readidx {off : Int} {f : Int × DB → DbProg α} (here : off = o) (sees : s.Sees p c)
    (found : (s.part c).entries o = some e) (plain : sep ∉ e.key)
    (next : ∀ db', Loaded db db' o e.toSlot → g.wp p (f (e.ptr, db')) post fail s) :
    g.wp p (dbReadidx db off >>= f) post fail s := by
  apply wp_readidxLine here sees found
  intro pos valid
  rw [valid.parseIdx_line plain]
  exact next _ ⟨⟨rfl, rfl, rfl⟩, rfl, rfl, rfl, rfl, rfl, rfl⟩

/-- `_db_readidx` fails on a record whose key has a separator. -/
theorem wp_readidx_sep {off : Int} {f : Int × DB → DbProg α} (here : off = o)
    (sees : s.Sees p c) (found : (s.part c).entries o = some e) (mem : sep ∈ e.key)
    (failed : ∀ t, Rely p s t → Inv g t →
      fail (.errDump "_db_readidx: too many separators") t) :
    g.wp p (dbReadidx db off >>= f) post fail s := by
  apply wp_readidxLine here sees found
  intro pos valid
  rw [valid.parseIdx_sep mem]
  exact failed

/-- `_db_readdat` of a record of a locked list. -/
theorem wp_readdat {f : Bytes × DB → DbProg α} (sees : s.Sees p c)
    (found : (s.part c).entries o = some e) (datoff : db.datoff = e.datoff)
    (datlen : db.datlen = e.data.length + 1)
    (next : g.wp p (f (e.data, { db with datbuf := e.data })) post fail s) :
    g.wp p (dbReaddat db >>= f) post fail s := by
  apply wp_valid sees found
  intro valid _
  have notNegative : ¬ (e.datoff : Int) < 0 := by omega
  simp only [dbReaddat, datoff, datlen, errDumpIf_false notNegative, Prog.seq_assoc,
    Prog.read_bind, Prog.op_bind, Prog.ret_bind, Prog.pure_eq, Int.toNat_natCast]
  apply wp_readData sees found
  rw [errDumpIf_false (by simp [Slot.length_datText]), Prog.ret_bind,
    errDumpIf_false (by simp [Slot.getLast?_datText]), Prog.ret_bind, valid.cstr_data]
  rw [datoff, datlen] at next
  exact next

/-! ## Writing -/

/-- `_db_writeptr` of the pointer to the first record of an owned list. -/
theorem wp_writeHead {off ptr : Int} {f : DB → DbProg α} (here : off = c.off) (value : ptr = v)
    (owns : s.Owns p c) (small : v ≤ ptrMax)
    (next : ∀ u pos, Edit s u c ((s.part c).setHead v) →
      g.wp p (f { db with idxpos := pos }) post fail u) :
    g.wp p (dbWriteptr db off ptr >>= f) post fail s := by
  have notNegative : ¬ (c.off : Int) < 0 := by omega
  simp only [dbWriteptr, here, value, errQuitUnlessPtr_fits small, seekIdx, notNegative, if_false,
    writeIdx, Prog.write_bind, Prog.op_bind, Prog.ret_bind, Prog.pure_eq, lld_ofNat,
    Int.toNat_natCast]
  exact wp_setHead owns small fun same => next _ _ (Edit.setHead same)

/-- `_db_writeptr` of the pointer of a record of an owned list. -/
theorem wp_writeNext {off ptr : Int} {f : DB → DbProg α} (here : off = o) (value : ptr = v)
    (owns : s.Owns p c) (found : (s.part c).entries o = some e) (small : v ≤ ptrMax)
    (next : ∀ u pos, Edit s u c ((s.part c).put o { e with ptr := v }) →
      g.wp p (f { db with idxpos := pos }) post fail u) :
    g.wp p (dbWriteptr db off ptr >>= f) post fail s := by
  have notNegative : ¬ (o : Int) < 0 := by omega
  simp only [dbWriteptr, here, value, errQuitUnlessPtr_fits small, seekIdx, notNegative, if_false,
    writeIdx, Prog.write_bind, Prog.op_bind, Prog.ret_bind, Prog.pure_eq, lld_ofNat,
    Int.toNat_natCast]
  have owner := (State.part_entries.mp found).2
  exact wp_setPtr owns found small fun same => next _ _ (Edit.setEntry found owner same)

/-- `_db_writedat` over the data of a record of an owned list. -/
theorem wp_writedat_set {off : Int} {d : Bytes} {f : DB → DbProg α} (here : off = e.datoff)
    (owns : s.Owns p c) (found : (s.part c).entries o = some e)
    (sameLength : d.length = e.data.length) (noNul : 0 ∉ d)
    (next : ∀ u, Edit s u c ((s.part c).put o { e with data := d }) →
      g.wp p (f { db with datoff := e.datoff, datlen := d.length + 1 }) post fail u) :
    g.wp p (dbWritedat db d off .set >>= f) post fail s := by
  have notNegative : ¬ (e.datoff : Int) < 0 := by omega
  simp only [dbWritedat, whenEnd, seekTo, here, notNegative, if_false, Prog.write_bind,
    Prog.op_bind, Prog.ret_bind, Prog.pure_eq, Int.toNat_natCast]
  have owner := (State.part_entries.mp found).2
  exact wp_setData owns found sameLength noNul fun same =>
    next _ (Edit.setEntry found owner same)

/-- A record that fits passes the length check of `_db_writeidx`. -/
theorem Slot.Valid.line_in_range {slot : Slot} (valid : slot.Valid) :
    ¬ (slot.line.length < idxlenMin ∨ slot.line.length > idxlenMax) := by
  have low := valid.line_ge
  have high := valid.line_le
  omega

/-- `_db_writeidx` over a record writes the new record. -/
theorem dbWriteidx_set_eq {slot : Slot} (valid : slot.Valid) (datoff : db.datoff = slot.datoff)
    (datlen : db.datlen = slot.data.length + 1) :
    dbWriteidx db slot.key o .set slot.ptr =
      .op (.write .idx o slot.text) fun _ => .ret
        { db with
          ptrval := slot.ptr
          idxbuf := slot.line
          idxoff := o
          idxpos := o + slot.text.length } := by
  have notNegative : ¬ (o : Int) < 0 := by omega
  have line : idxText slot.key slot.datoff (slot.data.length + 1) = slot.line := rfl
  simp only [dbWriteidx, errQuitUnlessPtr_fits valid.ptr_le, datoff, datlen, line,
    errDumpIf_false valid.line_in_range, whenEnd, seekTo, notNegative, if_false, writeIdx,
    Prog.write_bind, Prog.op_bind, Prog.ret_bind, Prog.pure_eq, lld_ofNat, Int.toNat_natCast]
  rfl

/-- `_db_writeidx` over a record of an owned list, with a key of the same length. -/
theorem wp_writeidx_set {off ptr : Int} (e' : Entry) {f : DB → DbProg α} (here : off = o)
    (value : ptr = e'.ptr) (owns : s.Owns p c) (found : (s.part c).entries o = some e)
    (small : e'.ptr ≤ ptrMax) (sameLength : e'.key.length = e.key.length) (noNul : 0 ∉ e'.key)
    (sameOff : e'.datoff = e.datoff) (sameData : e'.data = e.data)
    (sameOwner : e'.owner = e.owner) (plain : g.plain → sep ∉ e'.key)
    (datoff : db.datoff = e'.datoff) (datlen : db.datlen = e'.data.length + 1)
    (next : ∀ u pos, Edit s u c ((s.part c).put o e') → g.wp p
      (f { db with ptrval := e'.ptr, idxbuf := e'.line, idxoff := o, idxpos := pos }) post fail u) :
    g.wp p (dbWriteidx db e'.key off .set ptr >>= f) post fail s := by
  apply wp_valid owns.sees found
  intro old _
  have lineLength : e'.line.length = e.line.length := by
    rw [Slot.length_line, Slot.length_line, sameLength, sameOff, sameData]
  have valid : e'.Valid := by
    refine ⟨small, lineLength ▸ old.line_ge, lineLength ▸ old.line_le, noNul, ?_, ?_, ?_⟩
    · rw [sameData]
      exact old.data_nul
    · rw [sameData]
      exact old.data_pos
    · rw [sameData]
      exact old.data_lt
  have textLength : e'.text.length = e.text.length := by
    rw [valid.length_text, old.length_text, lineLength]
  rw [here, value, dbWriteidx_set_eq valid datoff datlen, Prog.op_bind]
  have owner : e'.owner = some c := sameOwner.trans (State.part_entries.mp found).2
  exact wp_setRecord owns found sameOwner valid textLength sameOff sameData plain fun same =>
    next _ _ (Edit.setEntry found owner same)

/-! ## Walking a list -/

/-- Offset of the pointer that points past the records walked. -/
def linkOff (c : Place) (front : List Nat) : Nat := (front.getLast?).getD c.off

/-- One more record walked. -/
theorem linkOff_append (c : Place) (front : List Nat) (o : Nat) :
    linkOff c (front ++ [o]) = o := by
  simp [linkOff]

/-- The loop of `_db_find_and_lock` from the middle of a chain. -/
theorem wp_findLoop {key : Bytes} {fuel : Nat} {f : Int × DB → DbProg α} (front : List Nat)
    {back : List Nat} {start : Nat} (sees : s.Sees p c) (walk : (s.part c).Walk (front ++ back))
    (path : LinkedList.Path 0 (s.part c).next start back)
    (plain : ∀ o e, (s.part c).entries o = some e → sep ∉ e.key)
    (before : ∀ o ∈ front, ∀ e, (s.part c).entries o = some e → e.key ≠ key)
    (enough : back.length < fuel) (link : db.ptroff = linkOff c front)
    (absent : ∀ db', Kept db db' → (∀ o e, (s.part c).entries o = some e → e.key ≠ key) →
      g.wp p (f (0, db')) post fail s)
    (present : ∀ db' o e front back, Loaded db' db' o e.toSlot → Kept db db' →
      db'.ptroff = linkOff c front → (s.part c).Walk (front ++ o :: back) →
      (s.part c).entries o = some e → e.key = key → g.wp p (f (o, db')) post fail s) :
    g.wp p (findLoop fuel db key start >>= f) post fail s := by
  induction back generalizing fuel db front start with
  | nil =>
    have atEnd : start = 0 := path
    obtain ⟨fuel, rfl⟩ : ∃ n, fuel = n + 1 := ⟨fuel - 1, by simp at enough; omega⟩
    simp only [findLoop, atEnd, Int.natCast_zero, if_true, Prog.ret_bind]
    apply absent db (Kept.refl db)
    intro o e found
    have mem := (walk.mem o).mpr ⟨e, found⟩
    rw [List.append_nil] at mem
    exact before o mem e found
  | cons o back step =>
    obtain ⟨rfl, nonnull, n, succ, tail⟩ := path
    obtain ⟨fuel, rfl⟩ : ∃ n, fuel = n + 1 := ⟨fuel - 1, by simp at enough; omega⟩
    obtain ⟨e, found⟩ := (walk.mem start).mp (by simp)
    rw [Part.next_eq found] at succ
    have sameNext : e.ptr = n := Option.some.inj succ
    have nonzero : ¬ (start : Int) = 0 := by omega
    simp only [findLoop, nonzero, if_false, Prog.seq_assoc]
    apply wp_readidx rfl sees found (plain start e found)
    intro db₁ loaded
    have kept₁ : Kept db db₁ := loaded.toKept
    by_cases same : e.key = key
    · simp only [loaded.idxbuf, same, if_true, Prog.pure_eq, Prog.ret_bind]
      exact present db₁ start e front back { loaded with toKept := Kept.refl db₁, ptroff := rfl }
        kept₁ (loaded.ptroff.trans link) walk found same
    · simp only [loaded.idxbuf, same, if_false, sameNext]
      have moved : front ++ start :: back = (front ++ [start]) ++ back := by simp
      apply step
      · rw [← moved]
        exact walk
      · exact tail
      · intro x mem e' found'
        rcases List.mem_append.mp mem with inFront | isStart
        · exact before x inFront e' found'
        · rw [List.mem_singleton.mp isStart, found] at found'
          rw [← Option.some.inj found']
          exact same
      · simp only [List.length_cons] at enough
        omega
      · simp only [linkOff_append]
      · intro db₂ kept₂ none_
        exact absent db₂ (kept₁.trans ⟨kept₂.chainoff, kept₂.hashoff, kept₂.nhash⟩) none_
      · intro db₂ o' e' front' back' loaded' kept₂ link' walk' found' key'
        exact present db₂ o' e' front' back' loaded'
          (kept₁.trans ⟨kept₂.chainoff, kept₂.hashoff, kept₂.nhash⟩) link' walk' found' key'

/-- The loop of `_db_findfree` from the middle of the free list. -/
theorem wp_findfreeLoop {keylen datlen fuel : Nat} {f : Int × Int × DB → DbProg α}
    (front : List Nat) {back : List Nat} {start : Nat} {saveoffset : Int} (sees : s.Sees p c)
    (walk : (s.part c).Walk (front ++ back))
    (path : LinkedList.Path 0 (s.part c).next start back)
    (plain : ∀ o e, (s.part c).entries o = some e → sep ∉ e.key)
    (before : ∀ o ∈ front, ∀ e, (s.part c).entries o = some e →
      ¬ (e.key.length = keylen ∧ e.data.length + 1 = datlen))
    (enough : back.length < fuel) (link : saveoffset = linkOff c front)
    (absent : ∀ db' saved, Kept db db' → (∀ o e, (s.part c).entries o = some e →
      ¬ (e.key.length = keylen ∧ e.data.length + 1 = datlen)) →
        g.wp p (f (0, saved, db')) post fail s)
    (present : ∀ db' o e front back, Loaded db' db' o e.toSlot → Kept db db' →
      (s.part c).Walk (front ++ o :: back) → (s.part c).entries o = some e →
      e.key.length = keylen → e.data.length + 1 = datlen →
        g.wp p (f (o, linkOff c front, db')) post fail s) :
    g.wp p (findfreeLoop fuel db keylen datlen saveoffset start >>= f) post fail s := by
  induction back generalizing fuel db front start saveoffset with
  | nil =>
    have atEnd : start = 0 := path
    obtain ⟨fuel, rfl⟩ : ∃ n, fuel = n + 1 := ⟨fuel - 1, by simp at enough; omega⟩
    simp only [findfreeLoop, atEnd, Int.natCast_zero, if_true, Prog.ret_bind]
    apply absent db saveoffset (Kept.refl db)
    intro o e found
    have mem := (walk.mem o).mpr ⟨e, found⟩
    rw [List.append_nil] at mem
    exact before o mem e found
  | cons o back step =>
    obtain ⟨rfl, nonnull, n, succ, tail⟩ := path
    obtain ⟨fuel, rfl⟩ : ∃ n, fuel = n + 1 := ⟨fuel - 1, by simp at enough; omega⟩
    obtain ⟨e, found⟩ := (walk.mem start).mp (by simp)
    rw [Part.next_eq found] at succ
    have sameNext : e.ptr = n := Option.some.inj succ
    have nonzero : ¬ (start : Int) = 0 := by omega
    simp only [findfreeLoop, nonzero, if_false, Prog.seq_assoc]
    apply wp_readidx rfl sees found (plain start e found)
    intro db₁ loaded
    have kept₁ : Kept db db₁ := loaded.toKept
    by_cases fits : e.key.length = keylen ∧ e.data.length + 1 = datlen
    · simp only [loaded.idxbuf, loaded.datlen, fits, and_self, if_true, Prog.pure_eq,
        Prog.ret_bind, link]
      exact present db₁ start e front back { loaded with toKept := Kept.refl db₁, ptroff := rfl }
        kept₁ walk found fits.1 fits.2
    · simp only [loaded.idxbuf, loaded.datlen, fits, if_false, sameNext]
      have moved : front ++ start :: back = (front ++ [start]) ++ back := by simp
      apply step
      · rw [← moved]
        exact walk
      · exact tail
      · intro x mem e' found'
        rcases List.mem_append.mp mem with inFront | isStart
        · exact before x inFront e' found'
        · rw [List.mem_singleton.mp isStart, found] at found'
          rw [← Option.some.inj found']
          exact fits
      · simp only [List.length_cons] at enough
        omega
      · simp only [linkOff_append]
      · intro db₂ saved kept₂ none_
        exact absent db₂ saved (kept₁.trans kept₂) none_
      · intro db₂ o' e' front' back' loaded' kept₂ walk' found' keylen' datlen'
        exact present db₂ o' e' front' back' loaded' (kept₁.trans kept₂) walk' found' keylen'
          datlen'

end Db

end CodeLearning
