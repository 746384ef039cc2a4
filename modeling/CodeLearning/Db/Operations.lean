import CodeLearning.Db.Functions

/-!
# Appending, freeing and reusing a record

The parts of `db_store` and `db_delete` that take further locks while they hold the chain:
appending data and a record, putting a record on the free list, taking one off it.
-/

namespace CodeLearning

namespace Db

open FileProgram ByteFile Decimal

variable {P : Type} [DecidableEq P] {α : Type} {g : Setting P} {p : P} {s t u : State P}
  {h : Fin nhashDef} {o v : Nat} {e : Entry} {post : α → State P → Prop}
  {fail : Failure → State P → Prop} {db : DB}

/-! ## What a process keeps -/

/-- What a process that owns a chain keeps while it works on it. -/
structure Carried (p : P) (h : Fin nhashDef) (s t : State P) : Prop where
  /-- Its locks. -/
  locks : t.locks p = s.locks p
  /-- The data of the keys of the chain. -/
  kv : ∀ k, bucket k = h → t.kv k = s.kv k
  /-- Its requests. -/
  requests : ownRequests t.hist p = ownRequests s.hist p
  /-- Its calls that have returned. -/
  returns : ownReturns t.log p = ownReturns s.log p
  /-- The map and the other chains, when it is alone. -/
  alone : Subsingleton P →
    t.kv = s.kv ∧ ∀ h', h' ≠ h → t.part (.chain h') = s.part (.chain h')

/-- What is carried twice is carried. -/
theorem Carried.trans (first : Carried p h s t) (second : Carried p h t u) :
    Carried p h s u where
  locks := second.locks.trans first.locks
  kv k inChain := (second.kv k inChain).trans (first.kv k inChain)
  requests := second.requests.trans first.requests
  returns := second.returns.trans first.returns
  alone single := by
    obtain ⟨kv₁, parts₁⟩ := first.alone single
    obtain ⟨kv₂, parts₂⟩ := second.alone single
    exact ⟨kv₂.trans kv₁, fun h' differ => (parts₂ h' differ).trans (parts₁ h' differ)⟩

/-- What others do is kept. -/
theorem Rely.carried (rely : Rely p s t) (sees : s.Sees p (.chain h)) : Carried p h s t where
  locks := rely.locks
  kv k inChain := rely.kv k (inChain ▸ sees)
  requests := rely.requests
  returns := rely.returns
  alone single := by
    rw [rely.alone single]
    exact ⟨rfl, fun _ _ => rfl⟩

/-- A step that changes no map, no history and no other chain. -/
theorem Carried.step (carried : Carried p h s t) (u : State P) (locks : u.locks p = t.locks p)
    (kv : u.kv = t.kv) (hist : u.hist = t.hist)
    (returns : ownReturns u.log p = ownReturns t.log p)
    (parts : ∀ h', h' ≠ h → u.part (.chain h') = t.part (.chain h')) : Carried p h s u := by
  apply carried.trans
  refine ⟨locks, fun k _ => congrFun kv k, by rw [hist], returns, ?_⟩
  exact fun _ => ⟨kv, parts⟩

/-- A write to the chain or to the free list. -/
theorem Carried.edit {c : Place} {A : Part} (carried : Carried p h s t) (edit : Edit t u c A)
    (mine : ∀ h', c = .chain h' → h' = h) : Carried p h s u := by
  apply carried.step u (by rw [edit.locks]) edit.kv edit.hist (by rw [edit.log])
  intro h' differ
  apply edit.others
  exact fun same => differ (mine h' same.symm)

/-- What a process owns is carried. -/
theorem Carried.owns {c : Place} (carried : Carried p h s t) (owns : s.Owns p c) :
    t.Owns p c := by
  rw [State.Owns, carried.locks]
  exact owns

/-- The process holds the chain and no other lock. -/
structure Holding (s : State P) (p : P) (h : Fin nhashDef) : Prop where
  /-- It owns the chain. -/
  owns : s.Owns p (.chain h)
  /-- It has not locked the free list. -/
  free : s.locks p .idx freeOff = none
  /-- It has not locked the end of the index file. -/
  tail : ∀ b, tableEnd ≤ b → s.locks p .idx b = none
  /-- It has not locked the data file. -/
  dat : ∀ b, s.locks p .dat b = none

/-- The lock of the chain is carried. -/
theorem Carried.holding (carried : Carried p h s t) (holding : Holding s p h) :
    Holding t p h := by
  refine ⟨carried.owns holding.owns, ?_, ?_, ?_⟩
  · rw [carried.locks]
    exact holding.free
  · intro b inTail
    rw [carried.locks]
    exact holding.tail b inTail
  · intro b
    rw [carried.locks]
    exact holding.dat b

/-- A lock taken and dropped again. -/
theorem setLocks_cancel {file : File} {range : Range} {mode : Option LockMode}
    (unheld : ∀ b, range.Contains b → s.locks p file b = none) :
    (s.setLocks p file range mode).setLocks p file range none = s := by
  have locks : ((s.setLocks p file range mode).setLocks p file range none).locks = s.locks := by
    funext q f b
    by_cases mine : q = p
    · subst mine
      rw [locks_setLocks_self, locks_setLocks_self]
      by_cases inside : f = file ∧ range.Contains b
      · rw [if_pos inside, inside.1, unheld b inside.2]
      · rw [if_neg inside, if_neg inside]
    · rw [locks_setLocks_other mine, locks_setLocks_other mine]
  have rest : (s.setLocks p file range mode).setLocks p file range none =
      { s with
        toWorld :=
          { s.toWorld with
            locks := ((s.setLocks p file range mode).setLocks p file range none).locks } } := rfl
  rw [rest, locks]

/-! ## Appending -/

/-- `_db_writedat` at the end of the data file. -/
theorem wp_writedat_end {d : Bytes} {f : DB → DbProg α} (unheld : ∀ b, s.locks p .dat b = none)
    (next : ∀ t, Rely p s t → Inv g t →
      g.wp p (f { db with datoff := (t.files .dat).length, datlen := d.length + 1 }) post fail
        (t.appendData p d)) :
    g.wp p (dbWritedat db d 0 .end_ >>= f) post fail s := by
  simp only [dbWritedat, whenEnd, seekTo, Prog.lock_bind, Prog.size_bind, Prog.op_bind,
    Prog.write_bind, Prog.unlock_bind, Prog.ret_bind, Prog.pure_eq]
  apply wp_lock fun b _ => unheld b
  intro t rely inv _
  have unheldT : ∀ b, wholeFile.Contains b → t.locks p .dat b = none := by
    intro b _
    rw [rely.locks]
    exact unheld b
  have appends : (t.setLocks p .dat wholeFile (some .write)).Appends p .dat := by
    rw [State.Appends, locks_setLocks_self]
    simp [wholeFile, Range.Contains]
  apply wp_size appends
  simp only [Int.add_zero]
  apply wp_appendData appends
  apply wp_unlock (by simp)
  have cancel : ((t.setLocks p .dat wholeFile (some .write)).appendData p d).setLocks p .dat
      wholeFile none = t.appendData p d := setLocks_cancel (s := t.appendData p d) unheldT
  rw [cancel]
  exact next t rely inv

/-- `_db_writeidx` at the end of the index file, for data appended before. -/
theorem wp_writeidx_end {f : DB → DbProg α} (standard : db.nhash = nhashDef)
    (holding : Holding s p h) (valid : e.Valid) (owner : e.owner = some (.chain h))
    (waiting : s.loose p = some (e.datoff, e.data)) (plain : g.plain → sep ∉ e.key)
    (datoff : db.datoff = e.datoff) (datlen : db.datlen = e.data.length + 1)
    (next : ∀ t pos, Rely p s t → Inv g t → g.wp p
      (f { db with
        ptrval := e.ptr, idxbuf := e.line, idxoff := (t.files .idx).length, idxpos := pos })
      post fail (t.appendEntry p e)) :
    g.wp p (dbWriteidx db e.key 0 .end_ e.ptr >>= f) post fail s := by
  have line : idxText e.key e.datoff (e.data.length + 1) = e.line := rfl
  simp only [dbWriteidx, errQuitUnlessPtr_fits valid.ptr_le, datoff, datlen, line,
    errDumpIf_false valid.line_in_range, whenEnd, seekTo, writeIdx, tailRange, standard,
    Prog.lock_bind, Prog.size_bind, Prog.write_bind, Prog.unlock_bind, Prog.op_bind,
    Prog.ret_bind, Prog.pure_eq, lld_ofNat]
  have unheld : ∀ b, (⟨tableEnd, 0⟩ : Range).Contains b → s.locks p .idx b = none :=
    fun b inside => holding.tail b inside.1
  apply wp_lock unheld
  intro t rely inv _
  have unheldT : ∀ b, (⟨tableEnd, 0⟩ : Range).Contains b → t.locks p .idx b = none := by
    intro b inside
    rw [rely.locks]
    exact unheld b inside
  have outside : ∀ c : Place, ¬ (⟨tableEnd, 0⟩ : Range).Contains c.off := by
    intro c inside
    have before := c.off_lt
    have low : tableEnd ≤ c.off := inside.1
    omega
  have appends : (t.setLocks p .idx ⟨tableEnd, 0⟩ (some .write)).Appends p .idx := by
    rw [State.Appends, locks_setLocks_self]
    simp [Range.Contains]
  have owns : (t.setLocks p .idx ⟨tableEnd, 0⟩ (some .write)).Owns p (.chain h) := by
    rw [State.Owns, locks_setLocks_self, if_neg fun inside => outside _ inside.2]
    exact rely.owns holding.owns
  apply wp_size appends
  simp only [Int.add_zero]
  apply wp_appendEntry owns appends owner (rely.loose.trans waiting) valid plain
  apply wp_unlock fun c _ inside => absurd inside (outside c)
  have cancel : ((t.setLocks p .idx ⟨tableEnd, 0⟩ (some .write)).appendEntry p e).setLocks p .idx
      ⟨tableEnd, 0⟩ none = t.appendEntry p e := setLocks_cancel (s := t.appendEntry p e) unheldT
  have done := next t ((t.files .idx).length + e.text.length) rely inv
  rw [datoff, datlen, standard] at done
  rw [← cancel] at done
  exact done

/-- The record that an append writes fits, and the file has room for its offset. -/
def AppendFits (files : File → Bytes) (key data : Bytes) : Prop :=
  idxlenMin ≤ (idxText key (files .dat).length (data.length + 1)).length ∧
    (idxText key (files .dat).length (data.length + 1)).length ≤ idxlenMax ∧
    (files .idx).length ≤ ptrMax

/-- Whether a record fits can be decided. -/
instance (files : File → Bytes) (key data : Bytes) : Decidable (AppendFits files key data) :=
  inferInstanceAs (Decidable (_ ∧ _ ∧ _))

/-- `_db_writeptr` has refused a pointer. -/
def Failure.Unlinked (failure : Failure) : Prop :=
  ∃ ptr, failure = .errQuit "_db_writeptr: invalid ptr: " ptr

/-- How an append fails, and what it leaves of a chain. -/
inductive AppendLeft (files : File → Bytes) (key data : Bytes) (failure : Failure) (A B : Part) :
    Prop where
  /-- The record is not written: its length is out of range. -/
  | unwritten (linked : ¬ failure.Unlinked)
      (bad : ¬ (idxlenMin ≤ (idxText key (files .dat).length (data.length + 1)).length ∧
        (idxText key (files .dat).length (data.length + 1)).length ≤ idxlenMax))
      (same : B = A)
  /-- The record is written and not linked in: its offset is out of range. -/
  | unlinked (unlinked : failure.Unlinked) (far : ptrMax < (files .idx).length) {o : Nat}
      {e : Entry} (new : A.entries o = none) (isKey : e.key = key) (isData : e.data = data)
      (put : B = A.put o e)

/-- An append that failed did not fit. -/
theorem AppendLeft.not_fits {files : File → Bytes} {key data : Bytes} {failure : Failure}
    {A B : Part} (left : AppendLeft files key data failure A B) : ¬ AppendFits files key data := by
  intro fits
  cases left with
  | unwritten _ bad _ => exact bad ⟨fits.1, fits.2.1⟩
  | unlinked _ far _ _ _ _ => exact absurd fits.2.2 (Nat.not_le.mpr far)

/-- How an append fails depends on the sizes of the files. -/
theorem AppendLeft.congr {files files' : File → Bytes} {key data : Bytes} {failure : Failure}
    {A B : Part} (left : AppendLeft files key data failure A B)
    (sizes : ∀ file, (files' file).length = (files file).length) :
    AppendLeft files' key data failure A B := by
  cases left with
  | unwritten linked bad same => exact .unwritten linked (by rw [sizes]; exact bad) same
  | unlinked unlinked far new isKey isData put =>
    exact .unlinked unlinked (by rw [sizes]; exact far) new isKey isData put

/-- The first write of an append is done: the data stands at an offset and belongs to no record. -/
structure DataLeft (p : P) (h : Fin nhashDef) (s u : State P) (data : Bytes) (off : Nat) :
    Prop where
  /-- What the process keeps. -/
  carried : Carried p h s u
  /-- The chain. -/
  part : u.part (.chain h) = s.part (.chain h)
  /-- The data waits for its record. -/
  waiting : u.loose p = some (off, data)
  /-- The offset, when the process is alone. -/
  place : Subsingleton P → off = (s.files .dat).length
  /-- The index file then. -/
  index : Subsingleton P → (u.files .idx).length = (s.files .idx).length
  /-- The data file then. -/
  grown : Subsingleton P → (u.files .dat).length = (s.files .dat).length + (data.length + 1)

/-- What the first write leaves. -/
theorem Rely.dataLeft (rely : Rely p s t) (sees : s.Sees p (.chain h)) (data : Bytes) :
    DataLeft p h s (t.appendData p data) data (t.files .dat).length where
  carried := (rely.carried sees).step (t.appendData p data) rfl rfl rfl rfl fun _ _ => rfl
  part := rely.part _ sees
  waiting := by simp [State.appendData]
  place single := by rw [rely.alone single]
  index single := by
    rw [rely.alone single]
    rfl
  grown single := by
    rw [rely.alone single]
    simp only [State.appendData, Function.update_self, length_writeAt, List.length_append,
      List.length_singleton]
    omega

/-- The second write of an append is done: the record stands at an offset, and its chain does not
lead to it yet. -/
structure RecordLeft (p : P) (h : Fin nhashDef) (s u : State P) (o : Nat) (e : Entry) : Prop where
  /-- What the process keeps. -/
  carried : Carried p h s u
  /-- There was no record. -/
  new : (s.part (.chain h)).entries o = none
  /-- The chain. -/
  part : u.part (.chain h) = (s.part (.chain h)).put o e
  /-- The offset is no null pointer. -/
  nonnull : o ≠ 0
  /-- No data waits. -/
  settled : u.loose p = none
  /-- The offset, when the process is alone. -/
  place : Subsingleton P → o = (s.files .idx).length
  /-- The data file then. -/
  same : Subsingleton P → u.files .dat = s.files .dat

/-- What the second write leaves. -/
theorem Rely.recordLeft (rely : Rely p s t) (inv : Inv g t) (sees : s.Sees p (.chain h))
    (owner : e.owner = some (.chain h)) :
    RecordLeft p h s (t.appendEntry p e) (t.files .idx).length e := by
  have unused : ∀ c, (t.part c).entries (t.files .idx).length = none := by
    intro c
    simp [State.part, inv.layout.end_free]
  have part := rely.part _ sees
  refine ⟨?_, ?_, ?_, ?_, ?_, ?_, ?_⟩
  · apply (rely.carried sees).step (t.appendEntry p e) rfl rfl rfl rfl
    intro h' differ
    refine part_update_other t (t.appendEntry p e) rfl rfl ?_ (unused _)
    rw [owner]
    exact fun same => differ (Place.chain.inj (Option.some.inj same)).symm
  · rw [← part]
    exact unused _
  · rw [part_update_self t (t.appendEntry p e) rfl rfl owner, part]
  · have past := inv.layout.table
    simp only [tableEnd, nhashDef, ptrSz] at past
    omega
  · simp [State.appendEntry]
  · intro single
    rw [rely.alone single]
  · intro single
    rw [rely.alone single]
    rfl

/-- A list after a record of a key was put at its front. -/
inductive Pushed (A B : Part) (key data : Bytes) : Prop where
  /-- The record stands where none of the list stood. -/
  | front {o : Nat} {e : Entry} (new : A.entries o = none) (nonnull : o ≠ 0)
      (points : e.ptr = A.head) (isKey : e.key = key) (isData : e.data = data)
      (put : B = (A.put o e).setHead o)

/-- Appending a record and linking it in. -/
theorem wp_storeAppend {key data : Bytes} {ptr : Int} {f : DB → DbProg α}
    (standard : db.nhash = nhashDef) (chain : db.chainoff = (Place.chain h).off)
    (holding : Holding s p h) (value : ptr = s.head (.chain h)) (keyNul : 0 ∉ key)
    (dataNul : 0 ∉ data) (dataPos : 0 < data.length) (dataLt : data.length < datlenMax)
    (plain : g.plain → sep ∉ key)
    (next : ∀ u db', Kept db db' → Carried p h s u →
      Pushed (s.part (.chain h)) (u.part (.chain h)) key data → u.loose p = none →
      (Subsingleton P → AppendFits s.files key data) →
      (Subsingleton P → (u.files .dat).length = (s.files .dat).length + (data.length + 1)) →
        g.wp p (f db') post fail u)
    (failed : ∀ failure u, Inv g u → Carried p h s u →
      (Subsingleton P →
        AppendLeft s.files key data failure (s.part (.chain h)) (u.part (.chain h)) ∧
          (s.files .dat).length < (u.files .dat).length) → fail failure u) :
    g.wp p (storeAppend db key data ptr >>= f) post fail s := by
  apply wp_sound holding.owns.sees
  intro headLe _
  simp only [storeAppend, Prog.seq_assoc, value]
  apply wp_writedat_end holding.dat
  intro t₁ rely₁ inv₁
  have first := rely₁.dataLeft holding.owns.sees data
  have holding₁ : Holding (t₁.appendData p data) p h := first.carried.holding holding
  -- The record that the second write appends.
  let e : Entry :=
    { ptr := s.head (.chain h), key := key, datoff := (t₁.files .dat).length, data := data
      owner := some (.chain h) }
  have line : idxText key ((t₁.files .dat).length : Nat) (data.length + 1) = e.line := rfl
  have sameLine : Subsingleton P →
      idxText key (s.files .dat).length (data.length + 1) = e.line := by
    intro single
    rw [← first.place single, line]
  by_cases fits : idxlenMin ≤ e.line.length ∧ e.line.length ≤ idxlenMax
  · have valid : e.Valid :=
      ⟨headLe, fits.1, fits.2, keyNul, dataNul, dataPos, dataLt⟩
    have standard₁ : ({ db with datoff := (t₁.files .dat).length, datlen := data.length + 1 } :
        DB).nhash = nhashDef := standard
    apply wp_writeidx_end (e := e) standard₁ holding₁ valid rfl first.waiting plain rfl rfl
    intro t₂ pos rely₂ inv₂
    have second : RecordLeft p h _ _ _ e := rely₂.recordLeft inv₂ holding₁.owns.sees rfl
    have carried := first.carried.trans second.carried
    have new := second.new
    have part := second.part
    rw [first.part] at new part
    have place : Subsingleton P → (t₂.files .idx).length = (s.files .idx).length := fun single =>
      (second.place single).trans (first.index single)
    have grown : Subsingleton P → ((t₂.appendEntry p e).files .dat).length =
        (s.files .dat).length + (data.length + 1) := by
      intro single
      rw [second.same single]
      exact first.grown single
    by_cases near : (t₂.files .idx).length ≤ ptrMax
    · apply wp_writeHead (c := .chain h) chain rfl (carried.owns holding.owns) near
      intro u pos' edit
      apply next u
      · exact ⟨rfl, rfl, rfl⟩
      · exact carried.edit edit fun h' same => (Place.chain.inj same).symm
      · refine .front new second.nonnull (e := e) rfl rfl rfl ?_
        rw [edit.part, part]
      · rw [edit.loose]
        exact second.settled
      · intro single
        rw [AppendFits, sameLine single, ← place single]
        exact ⟨fits.1, fits.2, near⟩
      · intro single
        rw [edit.sameSize single]
        exact grown single
    · have far : ptrMax < (t₂.files .idx).length := by omega
      simp only [dbWriteptr, errQuitUnlessPtr_large far, Prog.abort_bind]
      intro u rely₃ inv₃
      have sees := (carried.owns holding.owns).sees
      apply failed _ u inv₃ (carried.trans (rely₃.carried sees))
      intro single
      constructor
      · refine .unlinked ⟨_, rfl⟩ ?_ new (e := e) rfl rfl ?_
        · rw [← place single]
          exact far
        · rw [rely₃.part _ sees, part]
      · rw [rely₃.alone single, grown single]
        omega
  · have bad : e.line.length < idxlenMin ∨ e.line.length > idxlenMax := by omega
    simp only [dbWriteidx, errQuitUnlessPtr_fits headLe, line, errDumpIf_true bad,
      Prog.ret_bind, Prog.abort_bind]
    intro u rely₂ inv₂
    apply failed _ u inv₂ (first.carried.trans (rely₂.carried holding₁.owns.sees))
    intro single
    constructor
    · refine .unwritten ?_ ?_ ?_
      · rintro ⟨ptr, isQuit⟩
        cases isQuit
      · rw [sameLine single]
        exact fits
      · rw [rely₂.part _ holding₁.owns.sees, first.part]
    · rw [rely₂.alone single, first.grown single]
      omega

/-! ## Unlinking -/

/-- `_db_writeptr` of the pointer after the records walked. -/
theorem wp_writeLink {c : Place} {off ptr : Int} {link : Option Nat} {f : DB → DbProg α}
    (here : off = (link.getD c.off : Nat)) (value : ptr = v) (owns : s.Owns p c)
    (small : v ≤ ptrMax) (entry : ∀ b, link = some b → ∃ e, (s.part c).entries b = some e)
    (next : ∀ u pos, Edit s u c ((s.part c).setLink link v) →
      g.wp p (f { db with idxpos := pos }) post fail u) :
    g.wp p (dbWriteptr db off ptr >>= f) post fail s := by
  cases link with
  | none => exact wp_writeHead here value owns small next
  | some b =>
    obtain ⟨e, found⟩ := entry b rfl
    apply wp_writeNext here value owns found small
    intro u pos edit
    apply next u pos
    have same : (s.part c).setLink (some b) v = (s.part c).put b { e with ptr := v } := by
      simp [Part.setLink, Part.put, found]
    rw [same]
    exact edit

/-- The lock of a list, as the library takes it. -/
theorem byteAt_off {off : Int} {c : Place} (here : off = c.off) : byteAt off = c.lockRange := by
  rw [here]
  simp [byteAt, Place.lockRange]

/-- The lock of the free list. -/
theorem byteAt_free : byteAt freeOff = Place.free.lockRange := rfl

/-- Between the lock of the free list and its unlock: the process owns both lists, and once it
drops that lock it has kept what it carries. -/
structure Both (p : P) (h : Fin nhashDef) (s t : State P) : Prop where
  /-- It owns the free list. -/
  free : t.Owns p .free
  /-- It owns the chain. -/
  chain : t.Owns p (.chain h)
  /-- What it keeps. -/
  carried : Carried p h s (t.setLocks p .idx Place.free.lockRange none)

/-- A step that changes no lock, no map, no history and no other chain. -/
theorem Both.step (both : Both p h s t) (u : State P) (locks : u.locks = t.locks)
    (kv : u.kv = t.kv) (hist : u.hist = t.hist)
    (returns : ownReturns u.log p = ownReturns t.log p)
    (parts : ∀ h', h' ≠ h → u.part (.chain h') = t.part (.chain h')) : Both p h s u := by
  refine ⟨?_, ?_, ?_⟩
  · rw [State.Owns, locks]
    exact both.free
  · rw [State.Owns, locks]
    exact both.chain
  · apply both.carried.step (u.setLocks p .idx Place.free.lockRange none) _ kv hist returns parts
    funext f b
    rw [locks_setLocks_self, locks_setLocks_self, locks]

/-- A write to one of the two lists. -/
theorem Both.edit {c : Place} {A : Part} (both : Both p h s t) (edit : Edit t u c A)
    (mine : ∀ h', c = .chain h' → h' = h) : Both p h s u := by
  apply both.step u edit.locks edit.kv edit.hist (by rw [edit.log])
  intro h' differ
  apply edit.others
  exact fun same => differ (mine h' same.symm)

/-- A record of one of the two lists moves to the other. -/
theorem Both.hand {c : Place} (dest : Place) (mark : Note) (both : Both p h s t)
    (found : (t.part c).entries o = some e) (mine : ∀ h', c = .chain h' → h' = h)
    (destMine : ∀ h', dest = .chain h' → h' = h)
    (silent : ownReturns (t.log ++ [(p, mark)]) p = ownReturns t.log p) :
    Both p h s (t.hand p mark o { e with owner := some dest }) := by
  apply both.step (t.hand p mark o { e with owner := some dest }) rfl rfl rfl silent
  intro h' differ
  apply part_update_other t (t.hand p mark o { e with owner := some dest }) rfl rfl
  · exact fun same => differ (destMine h' (Option.some.inj same))
  · exact entries_none_of_ne found fun same => differ (mine h' same.symm)

/-- Taking the free list while holding a chain. -/
theorem wp_lockFree {rest : Unit → DbProg α} (holding : Holding s p h)
    (next : ∀ t, Both p h s t → FreeList (t.part .free) → t.part (.chain h) = s.part (.chain h) →
      t.loose p = s.loose p → SameSize s t →
      (Subsingleton P → t.files = s.files) → g.wp p (rest ()) post fail t) :
    g.wp p (.op (.lock .idx .write (byteAt freeOff)) rest) post fail s := by
  rw [byteAt_free]
  apply wp_lock
  · intro b inside
    have isFree : b = freeOff := by
      simp only [Place.lockRange, Range.Contains, Place.off] at inside
      omega
    rw [isFree]
    exact holding.free
  intro t rely inv parts
  have sees := holding.owns.sees
  have notChain : ¬ Place.free.lockRange.Contains (Place.chain h).off := fun inside =>
    absurd (Place.lockRange_contains.mp inside) (by simp)
  have unheld : ∀ b, Place.free.lockRange.Contains b → t.locks p .idx b = none := by
    intro b inside
    have isFree : b = freeOff := by
      simp only [Place.lockRange, Range.Contains, Place.off] at inside
      omega
    rw [isFree, rely.locks]
    exact holding.free
  have cancel : (t.setLocks p .idx Place.free.lockRange (some .write)).setLocks p .idx
      Place.free.lockRange none = t := setLocks_cancel unheld
  apply next (t.setLocks p .idx Place.free.lockRange (some .write))
  · refine ⟨?_, ?_, ?_⟩
    · rw [State.Owns, locks_setLocks_self, if_pos ⟨rfl, Place.lockRange_contains.mpr rfl⟩]
    · rw [State.Owns, locks_setLocks_self, if_neg fun inside => notChain inside.2]
      exact rely.owns holding.owns
    · rw [cancel]
      exact rely.carried sees
  · exact parts .free rfl (Place.lockRange_contains.mpr rfl)
  · exact rely.part _ sees
  · exact rely.loose
  · exact rely.sameSize
  · intro single
    have same := rely.alone single
    subst same
    rfl

/-- Giving the free list back. -/
theorem wp_unlockFree {rest : Unit → DbProg α} (free : FreeList (t.part .free))
    (next : g.wp p (rest ()) post fail (t.setLocks p .idx Place.free.lockRange none)) :
    g.wp p (.op (.unlock .idx (byteAt freeOff)) rest) post fail t := by
  rw [byteAt_free]
  apply wp_unlock _ next
  intro c _ inside _
  rw [Place.lockRange_contains.mp inside]
  exact free

/-- The record and its predecessor do not meet. -/
theorem erase_setLink_put (A : Part) (link : Option Nat) (v : Nat) (differ : link ≠ some o) :
    ((A.put o e).setLink link v).erase o = (A.setLink link v).erase o := by
  cases link with
  | none => simp [Part.setLink, Part.setHead, Part.put, Part.erase]
  | some b =>
    have other : b ≠ o := fun same => differ (congrArg some same)
    simp only [Part.setLink, Part.put, Part.erase, Function.update_of_ne other]
    congr 1
    funext x
    by_cases same : x = o
    · simp [same]
    · by_cases isB : x = b
      · simp [isB, other]
      · simp [Function.update_of_ne same, Function.update_of_ne isB]

/-- `_db_dodelete` of a record of the chain that was just read. -/
theorem wp_dodelete {front back : List Nat} {f : DB → DbProg α} (holding : Holding s p h)
    (walk : (s.part (.chain h)).Walk (front ++ o :: back))
    (found : (s.part (.chain h)).entries o = some e) (loaded : Loaded db db o e.toSlot)
    (link : db.ptroff = linkOff (.chain h) front)
    (next : ∀ u db', Kept db db' → Carried p h s u →
      u.part (.chain h) = ((s.part (.chain h)).setLink front.getLast? e.ptr).erase o →
      u.loose p = s.loose p → SameSize s u → g.wp p (f db') post fail u) :
    g.wp p (dbDodelete db >>= f) post fail s := by
  apply wp_sound holding.owns.sees
  intro headLe records
  have ptrLe : ∀ o e, (s.part (.chain h)).entries o = some e → e.ptr ≤ ptrMax :=
    fun o e found => (records o e found).1.ptr_le
  have near : o ≤ ptrMax := Part.path_le ptrLe walk.path headLe o (by simp)
  obtain ⟨valid, past⟩ := records o e found
  have nonnull : o ≠ 0 := by
    simp only [tableEnd, nhashDef, ptrSz] at past
    omega
  have blankNul : ∀ n, 0 ∉ List.replicate n space := by
    intro n mem
    exact absurd (List.eq_of_mem_replicate mem) (by decide)
  have blankPlain : ∀ n, sep ∉ List.replicate n space := by
    intro n mem
    exact absurd (List.eq_of_mem_replicate mem) (by decide)
  have mine : ∀ h', Place.chain h = .chain h' → h' = h := fun h' same =>
    (Place.chain.inj same).symm
  have freeMine : ∀ h', Place.free = .chain h' → h' = h := fun h' same => by cases same
  simp only [dbDodelete, loaded.datlen, loaded.idxbuf, Nat.add_sub_cancel, Prog.lock_bind,
    Prog.op_bind, Prog.seq_assoc]
  apply wp_lockFree holding
  intro t both free part loose sameSize _
  have foundT : (t.part (.chain h)).entries o = some e := by
    rw [part]
    exact found
  -- Blanks over the data.
  apply wp_writedat_set loaded.datoff both.chain foundT (List.length_replicate ..) (blankNul _)
  intro s₁ edit₁
  have both₁ := both.edit edit₁ mine
  have found₁ : (s₁.part (.chain h)).entries o =
      some { e with data := List.replicate e.data.length space } := by
    rw [edit₁.part]
    simp [Part.put]
  -- Blanks over the key, and the pointer to the first free record.
  apply wp_readptr (c := .free) rfl both₁.free.sees
  intro pos
  apply wp_sound both₁.free.sees
  intro freeLe _
  let e₂ : Entry :=
    { ptr := s₁.head .free, key := List.replicate e.key.length space, datoff := e.datoff
      data := List.replicate e.data.length space, owner := e.owner }
  apply wp_writeidx_set e₂ loaded.idxoff rfl both₁.chain found₁ freeLe (List.length_replicate ..)
    (blankNul _) rfl rfl rfl (fun _ => blankPlain _) rfl rfl
  intro s₂ pos₂ edit₂
  have both₂ := both₁.edit edit₂ mine
  have found₂ : (s₂.part (.chain h)).entries o = some e₂ := by
    rw [edit₂.part]
    simp [Part.put]
  -- The free list starts with the record.
  apply wp_writeHead (c := .free) rfl rfl both₂.free near
  intro s₃ pos₃ edit₃
  have both₃ := both₂.edit edit₃ freeMine
  have found₃ : (s₃.part (.chain h)).entries o = some e₂ := by
    rw [edit₃.others _ (by simp)]
    exact found₂
  have part₃ : s₃.part (.chain h) = (s.part (.chain h)).put o e₂ := by
    rw [edit₃.others _ (by simp), edit₂.part, edit₁.part, part]
    simp [Part.put]
  -- The chain goes on after the record.
  apply wp_writeLink (c := .chain h) link loaded.ptrval both₃.chain valid.ptr_le
  · intro b last
    obtain ⟨eb, entry⟩ := walk.link_entry last
    have differ : b ≠ o := fun same => walk.link_ne (same ▸ last)
    rw [part₃]
    exact ⟨eb, by simpa [Part.put, differ] using entry⟩
  intro s₄ pos₄ edit₄
  have both₄ := both₃.edit edit₄ mine
  have part₄ : s₄.part (.chain h) =
      ((s.part (.chain h)).put o e₂).setLink front.getLast? e.ptr := by
    rw [edit₄.part, part₃]
  have found₄ : (s₄.part (.chain h)).entries o = some e₂ := by
    rw [part₄]
    cases last : front.getLast? with
    | none => simp [Part.setLink, Part.setHead, Part.put]
    | some b =>
      have differ : o ≠ b := fun same => walk.link_ne (same ▸ last)
      simp [Part.setLink, Part.put, differ]
  simp only [Prog.note_bind, Prog.unlock_bind]
  apply wp_freed both₄.chain both₄.free found₄
  -- The record is the free list's.
  have both₅ := both₄.hand .free (.freed o) found₄ mine freeMine (ownReturns_append_freed ..)
  let s₅ := s₄.hand p (.freed o) o { e₂ with owner := some .free }
  have part₅ : s₅.part .free =
      ((t.part .free).put o { e₂ with owner := some .free }).setHead o := by
    rw [part_update_self s₄ s₅ rfl rfl rfl, edit₄.others _ (by simp), edit₃.part,
      edit₂.others _ (by simp), edit₁.others _ (by simp)]
    rfl
  have sameHead : s₁.head .free = (t.part .free).head :=
    congrArg Part.head (edit₁.others .free (by simp))
  have new : (t.part .free).entries o = none := entries_none_of_ne foundT (by simp)
  apply wp_unlockFree
  · show FreeList (s₅.part .free)
    rw [part₅]
    exact free.push new nonnull sameHead fun _ mem => List.eq_of_mem_replicate mem
  apply next _ _ _ both₅.carried
  · show s₅.part (.chain h) = _
    have gone : some Place.free ≠ some (.chain h) := by simp
    rw [part_update_erase s₄ s₅ rfl rfl gone, part₄, erase_setLink_put _ _ _ walk.link_ne]
  · show s₄.loose p = s.loose p
    rw [edit₄.loose, edit₃.loose, edit₂.loose, edit₁.loose, loose]
  · have sizes := (((sameSize.trans edit₁.sameSize).trans edit₂.sameSize).trans
      edit₃.sameSize).trans edit₄.sameSize
    exact sizes
  · exact ⟨rfl, rfl, rfl⟩

/-- `_db_findfree` while holding a chain: the record found belongs to the chain, not yet
linked in. -/
theorem wp_findfree {keylen datlen fuel : Nat} {f : Int × DB → DbProg α}
    (holding : Holding s p h) (enough : ptrMax < fuel)
    (absent : ∀ u db', Kept db db' → Carried p h s u →
      u.part (.chain h) = s.part (.chain h) → u.loose p = s.loose p →
      (Subsingleton P → u.files = s.files) → g.wp p (f (-1, db')) post fail u)
    (present : ∀ u db' (o : Nat) e, Kept db db' → db'.idxoff = o → db'.datoff = e.datoff →
      Carried p h s u → u.part (.chain h) = (s.part (.chain h)).put o e →
      (s.part (.chain h)).entries o = none → o ≠ 0 → o ≤ ptrMax → e.key.length = keylen →
      e.data.length + 1 = datlen → u.loose p = s.loose p → SameSize s u →
      g.wp p (f (0, db')) post fail u) :
    g.wp p (dbFindfree fuel db keylen datlen >>= f) post fail s := by
  simp only [dbFindfree, Prog.lock_bind, Prog.op_bind, Prog.seq_assoc]
  apply wp_lockFree holding
  intro t both free part loose sameSize alone
  apply wp_readptr (c := .free) rfl both.free.sees
  intro pos
  apply wp_sound both.free.sees
  intro headLe records
  have ptrLe : ∀ o e, (t.part .free).entries o = some e → e.ptr ≤ ptrMax :=
    fun o e found => (records o e found).1.ptr_le
  obtain ⟨l, walk⟩ := free.walk
  have short := walk.length_le headLe ptrLe
  apply wp_findfreeLoop [] both.free.sees walk walk.path free.plain (by simp)
    (Nat.lt_of_le_of_lt short enough) rfl
  · intro db' saved kept _
    simp only [findfreeTake, if_true, Prog.ret_bind, Prog.unlock_bind]
    apply wp_unlockFree free
    exact absent _ _ ⟨kept.chainoff, kept.hashoff, kept.nhash⟩ both.carried part loose alone
  · intro db' o e front back loaded kept walk' found keylen' datlen'
    have past := (records o e found).2
    have near : o ≤ ptrMax := Part.path_le ptrLe walk'.path headLe o (by simp)
    have nonnull : o ≠ 0 := by
      simp only [tableEnd, nhashDef, ptrSz] at past
      omega
    have notEnd : ¬ (o : Int) = 0 := by omega
    have freeMine : ∀ h', Place.free = .chain h' → h' = h := fun h' same => by cases same
    simp only [findfreeTake, notEnd, if_false, Prog.seq_assoc]
    apply wp_writeLink (c := .free) rfl loaded.ptrval both.free (ptrLe o e found)
    · exact fun b last => walk'.link_entry last
    intro s₁ pos₁ edit₁
    have both₁ := both.edit edit₁ freeMine
    have found₁ : (s₁.part .free).entries o = some e := by
      rw [edit₁.part]
      cases last : front.getLast? with
      | none => exact found
      | some b =>
        have differ : o ≠ b := fun same => walk'.link_ne (same ▸ last)
        simpa [Part.setLink, differ] using found
    simp only [loaded.idxoff, Prog.note_bind, Prog.unlock_bind, Prog.ret_bind, Prog.pure_eq]
    apply wp_took both₁.free both₁.chain found₁
    -- The record is the chain's.
    have both₂ := both₁.hand (.chain h) (.took o) found₁ freeMine
      (fun h' same => (Place.chain.inj same).symm) (ownReturns_append_took ..)
    let s₂ := s₁.hand p (.took o) o { e with owner := some (.chain h) }
    have free₂ : s₂.part .free = ((t.part .free).setLink front.getLast? e.ptr).erase o := by
      have gone : some (Place.chain h) ≠ some .free := by simp
      rw [part_update_erase s₁ s₂ rfl rfl gone, edit₁.part]
    apply wp_unlockFree
    · show FreeList (s₂.part .free)
      rw [free₂]
      exact free.unlink walk' found
    apply present _ _ o { e with owner := some (.chain h) } _ _ _ both₂.carried
    · show s₂.part (.chain h) = _
      rw [part_update_self s₁ s₂ rfl rfl rfl, edit₁.others _ (by simp), part]
    · rw [← part]
      exact entries_none_of_ne found (by simp)
    · exact nonnull
    · exact near
    · exact keylen'
    · exact datlen'
    · show s₁.loose p = s.loose p
      rw [edit₁.loose, loose]
    · exact sameSize.trans edit₁.sameSize
    · exact ⟨kept.chainoff, kept.hashoff, kept.nhash⟩
    · rfl
    · exact loaded.datoff

/-! ## Filling a record taken off the free list -/

/-- Filling a record of the chain that is not linked in, and linking it in. -/
theorem wp_storeReuse {A : Part} {key data : Bytes} {ptr : Int} {f : DB → DbProg α}
    (chain : db.chainoff = (Place.chain h).off) (owns : s.Owns p (.chain h))
    (value : ptr = A.head) (taken : s.part (.chain h) = A.put o e) (new : A.entries o = none)
    (nonnull : o ≠ 0) (near : o ≤ ptrMax) (idxoff : db.idxoff = o) (datoff : db.datoff = e.datoff)
    (keyLength : key.length = e.key.length) (dataLength : data.length = e.data.length)
    (keyNul : 0 ∉ key) (dataNul : 0 ∉ data) (plain : g.plain → sep ∉ key)
    (next : ∀ u db', Kept db db' → Carried p h s u → Pushed A (u.part (.chain h)) key data →
      u.loose p = s.loose p → SameSize s u → g.wp p (f db') post fail u) :
    g.wp p (storeReuse db key data ptr >>= f) post fail s := by
  have found : (s.part (.chain h)).entries o = some e := by
    rw [taken]
    simp [Part.put]
  have sameHead : s.head (.chain h) = A.head := congrArg Part.head taken
  apply wp_sound owns.sees
  intro headLe _
  rw [sameHead] at headLe
  have mine : ∀ h', Place.chain h = .chain h' → h' = h := fun h' same =>
    (Place.chain.inj same).symm
  simp only [storeReuse, Prog.seq_assoc, value]
  apply wp_writedat_set datoff owns found dataLength dataNul
  intro s₁ edit₁
  have found₁ : (s₁.part (.chain h)).entries o = some { e with data := data } := by
    rw [edit₁.part]
    simp [Part.put]
  -- The record as the second write leaves it.
  let e₂ : Entry := { e with ptr := A.head, key := key, data := data }
  apply wp_writeidx_set e₂ idxoff rfl (edit₁.owns owns) found₁ headLe keyLength keyNul rfl rfl rfl
    plain rfl rfl
  intro s₂ pos edit₂
  apply wp_writeHead (c := .chain h) chain rfl (edit₂.owns (edit₁.owns owns)) near
  intro s₃ pos' edit₃
  apply next s₃
  · exact ⟨rfl, rfl, rfl⟩
  · have carried := (Rely.refl p s).carried owns.sees
    exact ((carried.edit edit₁ mine).edit edit₂ mine).edit edit₃ mine
  · refine .front new nonnull (e := e₂) rfl rfl rfl ?_
    rw [edit₃.part, edit₂.part, edit₁.part, taken]
    simp [Part.put]
  · rw [edit₃.loose, edit₂.loose, edit₁.loose]
  · exact (edit₁.sameSize.trans edit₂.sameSize).trans edit₃.sameSize

end Db

end CodeLearning
