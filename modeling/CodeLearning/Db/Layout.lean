import CodeLearning.Db.Record

/-!
# Layout of the two files

The index file is the pointers of the free list and of the hash table, a newline, and then
index records one after the other. `Layout` says which records and pointers the files hold,
and that the data records of two index records never overlap. Data that a process has
appended and not yet entered in an index record is `loose`. Each lemma says what one write
of the library makes of a layout.
-/

namespace CodeLearning

namespace Db

open ByteFile

/-! ## Lists and their pointers -/

/-- A list of index records. -/
inductive Place where
  /-- The free list. -/
  | free
  /-- A hash chain. -/
  | chain (h : Fin nhashDef)
  deriving DecidableEq

/-- Offset of the pointer to the first record of a list. -/
def Place.off : Place → Nat
  | .free => freeOff
  | .chain h => h * ptrSz + hashOff

/-- End of the hash table and its newline. -/
def tableEnd : Nat := (nhashDef + 1) * ptrSz + 1

/-- Chain of a key. -/
def bucket (key : Bytes) : Fin nhashDef := ⟨hashLoop key 1 0 % nhashDef, Nat.mod_lt _ (by decide)⟩

/-- The pointers of two lists do not overlap. -/
theorem Place.off_apart {c c' : Place} (differ : c ≠ c') :
    c.off + ptrSz ≤ c'.off ∨ c'.off + ptrSz ≤ c.off := by
  cases c with
  | free =>
    cases c' with
    | free => exact absurd rfl differ
    | chain h =>
      simp only [off, freeOff, hashOff, ptrSz]
      omega
  | chain h =>
    cases c' with
    | free =>
      simp only [off, freeOff, hashOff, ptrSz]
      omega
    | chain h' =>
      have values : (h : Nat) ≠ h' := fun same => differ (congrArg Place.chain (Fin.ext same))
      simp only [off, hashOff, ptrSz]
      omega

/-- Two lists have their pointers at different offsets. -/
theorem Place.off_injective {c c' : Place} (same : c.off = c'.off) : c = c' := by
  by_contra differ
  have apart := Place.off_apart differ
  simp only [ptrSz] at apart
  omega

/-- The pointers lie before the end of the table. -/
theorem Place.off_lt (c : Place) : c.off + ptrSz < tableEnd := by
  cases c with
  | free => decide
  | chain h =>
    have bound := h.isLt
    simp only [off, hashOff, ptrSz, tableEnd, nhashDef] at *
    omega

/-- An index record and the list it belongs to, if any. -/
structure Entry extends Slot where
  /-- The list. -/
  owner : Option Place
  deriving DecidableEq

/-! ## Layout -/

section Layout

variable {P : Type}

/-- Data records: those of index records, and those not yet entered in one. -/
def pieces (recs : Nat → Option Entry) (loose : P → Option (Nat × Bytes)) :
    Nat ⊕ P → Option (Nat × Bytes)
  | .inl o => (recs o).map fun e => (e.datoff, e.data)
  | .inr p => loose p

/-- What the files hold. -/
structure Layout (idx dat : Bytes) (recs : Nat → Option Entry) (head : Place → Nat)
    (loose : P → Option (Nat × Bytes)) : Prop where
  /-- The table is there. -/
  table : tableEnd ≤ idx.length
  /-- First records are within reach. -/
  head_le : ∀ c, head c ≤ ptrMax
  /-- The pointers to first records. -/
  cells : ∀ c, Holds idx c.off (ptrText (head c))
  /-- Records fit their fields. -/
  valid : ∀ o e, recs o = some e → e.Valid
  /-- Records lie after the table. -/
  past : ∀ o e, recs o = some e → tableEnd ≤ o
  /-- Records stand in the index file. -/
  index : ∀ o e, recs o = some e → Holds idx o e.text
  /-- Records do not overlap. -/
  apart : ∀ o e o' e', recs o = some e → recs o' = some e' → o < o' → o + e.text.length ≤ o'
  /-- Nothing lies between records. -/
  cover : ∀ i, tableEnd ≤ i → i < idx.length →
    ∃ o e, recs o = some e ∧ o ≤ i ∧ i < o + e.text.length
  /-- Data stands in the data file. -/
  data : ∀ x off d, pieces recs loose x = some (off, d) → Holds dat off (d ++ [newline])
  /-- Data records do not overlap. -/
  dataApart : ∀ x y off d off' d', x ≠ y → pieces recs loose x = some (off, d) →
    pieces recs loose y = some (off', d') →
      off + (d.length + 1) ≤ off' ∨ off' + (d'.length + 1) ≤ off

namespace Layout

variable {idx idx' dat dat' : Bytes} {recs : Nat → Option Entry} {head : Place → Nat}
  {loose : P → Option (Nat × Bytes)} {o : Nat} {e e' : Entry}

/-- The pointers to first records lie within the file. -/
theorem cell_le (layout : Layout idx dat recs head loose) (c : Place) :
    c.off + ptrSz ≤ idx.length := by
  have inTable := c.off_lt
  have table := layout.table
  omega

/-- Records lie within the file. -/
theorem index_le (layout : Layout idx dat recs head loose) (found : recs o = some e) :
    o + e.text.length ≤ idx.length := by
  apply (layout.index o e found).le_length
  rw [(layout.valid o e found).length_text]
  simp only [ptrSz]
  omega

/-- A record is not empty. -/
theorem text_pos (layout : Layout idx dat recs head loose) (found : recs o = some e) :
    ptrSz + idxlenSz ≤ e.text.length := by
  rw [(layout.valid o e found).length_text]
  omega

/-- No record starts at the end of the file. -/
theorem end_free (layout : Layout idx dat recs head loose) : recs idx.length = none := by
  cases found : recs idx.length with
  | none => rfl
  | some e =>
    have inside := layout.index_le found
    have positive := layout.text_pos found
    simp only [ptrSz] at positive
    omega

/-- Two records do not overlap, in whichever order. -/
theorem apart_of_ne {o' : Nat} (layout : Layout idx dat recs head loose)
    (found : recs o = some e) (found' : recs o' = some e') (differ : o ≠ o') :
    o + e.text.length ≤ o' ∨ o' + e'.text.length ≤ o := by
  rcases Nat.lt_or_gt_of_ne differ with before | after_
  · exact .inl (layout.apart o e o' e' found found' before)
  · exact .inr (layout.apart o' e' o e found' found after_)

/-- Data of an index record stands in the data file. -/
theorem entry_data (layout : Layout idx dat recs head loose) (found : recs o = some e) :
    Holds dat e.datoff e.datText := by
  apply layout.data (.inl o)
  simp [pieces, found]

/-- Data lies within the data file. -/
theorem data_le {x : Nat ⊕ P} {off : Nat} {d : Bytes}
    (layout : Layout idx dat recs head loose) (found : pieces recs loose x = some (off, d)) :
    off + (d.length + 1) ≤ dat.length := by
  have inside := (layout.data x off d found).le_length (by simp)
  simpa using inside

/-! ### Writes -/

/-- Writing the pointer to the first record of a list. -/
theorem setHead {c : Place} {v : Nat} (layout : Layout idx dat recs head loose)
    (small : v ≤ ptrMax) :
    Layout (writeAt idx c.off (ptrText v)) dat recs (Function.update head c v) loose := by
  have width := length_ptrText small
  have inside := layout.cell_le c
  have length : (writeAt idx c.off (ptrText v)).length = idx.length := by
    rw [length_writeAt, width]
    omega
  have table := c.off_lt
  refine
    { layout with
      table := by rw [length]; exact layout.table
      head_le := ?_, cells := ?_, index := ?_, cover := ?_ }
  · intro c'
    by_cases same : c' = c
    · rw [same, Function.update_self]
      exact small
    · rw [Function.update_of_ne same]
      exact layout.head_le c'
  · intro c'
    by_cases same : c' = c
    · rw [same, Function.update_self]
      exact holds_writeAt _ _ _
    · rw [Function.update_of_ne same]
      apply (layout.cells c').writeAt_apart
      rw [width, length_ptrText (layout.head_le c')]
      exact Place.off_apart same
  · intro o e found
    apply (layout.index o e found).writeAt_apart
    have past := layout.past o e found
    rw [width]
    omega
  · intro i low high
    exact layout.cover i low (by omega)

/-- Replacing a record by one of the same length with the same data. -/
theorem setIndex (layout : Layout idx dat recs head loose) (found : recs o = some e)
    (length : idx'.length = idx.length) (stands : Holds idx' o e'.text)
    (keeps : ∀ off bytes, Holds idx off bytes →
      off + bytes.length ≤ o ∨ o + e.text.length ≤ off → Holds idx' off bytes)
    (valid : e'.Valid) (sameLength : e'.text.length = e.text.length)
    (sameOff : e'.datoff = e.datoff) (sameData : e'.data = e.data) :
    Layout idx' dat (Function.update recs o (some e')) head loose := by
  have past := layout.past o e found
  have samePieces :
      pieces (Function.update recs o (some e')) loose = pieces recs loose := by
    funext x
    cases x with
    | inl o' =>
      by_cases same : o' = o
      · rw [same]
        simp [pieces, found, sameOff, sameData]
      · simp only [pieces, Function.update_of_ne same]
    | inr p => rfl
  -- A record of the new layout stands where one of the same length stood.
  have before : ∀ o' e₁, Function.update recs o (some e') o' = some e₁ →
      ∃ e₀, recs o' = some e₀ ∧ e₁.text.length = e₀.text.length := by
    intro o' e₁ found'
    by_cases same : o' = o
    · rw [same, Function.update_self] at found'
      cases found'
      exact ⟨e, same ▸ found, sameLength⟩
    · rw [Function.update_of_ne same] at found'
      exact ⟨e₁, found', rfl⟩
  refine
    { table := by rw [length]; exact layout.table
      head_le := layout.head_le
      cells := ?_, valid := ?_, past := ?_, index := ?_, apart := ?_, cover := ?_
      data := by rw [samePieces]; exact layout.data
      dataApart := by rw [samePieces]; exact layout.dataApart }
  · intro c
    apply keeps _ _ (layout.cells c)
    have inTable := c.off_lt
    rw [length_ptrText (layout.head_le c)]
    omega
  · intro o' e₁ found'
    by_cases same : o' = o
    · rw [same, Function.update_self] at found'
      cases found'
      exact valid
    · rw [Function.update_of_ne same] at found'
      exact layout.valid o' e₁ found'
  · intro o' e₁ found'
    obtain ⟨e₀, found₀, -⟩ := before o' e₁ found'
    exact layout.past o' e₀ found₀
  · intro o' e₁ found'
    by_cases same : o' = o
    · rw [same, Function.update_self] at found'
      cases found'
      rw [same]
      exact stands
    · rw [Function.update_of_ne same] at found'
      exact keeps _ _ (layout.index o' e₁ found') (layout.apart_of_ne found' found same)
  · intro o₁ e₁ o₂ e₂ found₁ found₂ lt
    obtain ⟨e₁', found₁', len⟩ := before o₁ e₁ found₁
    obtain ⟨e₂', found₂', -⟩ := before o₂ e₂ found₂
    rw [len]
    exact layout.apart o₁ e₁' o₂ e₂' found₁' found₂' lt
  · intro i low high
    obtain ⟨o₁, e₁, found₁, le, lt⟩ := layout.cover i low (by omega)
    by_cases same : o₁ = o
    · subst same
      have sameEntry : e₁ = e := Option.some.inj (found₁.symm.trans found)
      refine ⟨o₁, e', Function.update_self .., le, ?_⟩
      rw [sameLength, ← sameEntry]
      exact lt
    · exact ⟨o₁, e₁, by rw [Function.update_of_ne same]; exact found₁, le, lt⟩

/-- Writing a whole record over one of the same length. -/
theorem setRecord (layout : Layout idx dat recs head loose) (found : recs o = some e)
    (valid : e'.Valid) (sameLength : e'.text.length = e.text.length)
    (sameOff : e'.datoff = e.datoff) (sameData : e'.data = e.data) :
    Layout (writeAt idx o e'.text) dat (Function.update recs o (some e')) head loose := by
  have inside := layout.index_le found
  apply layout.setIndex found _ (holds_writeAt _ _ _) _ valid sameLength sameOff sameData
  · rw [length_writeAt, sameLength]
    omega
  · intro off bytes holds apart
    apply holds.writeAt_apart
    rw [sameLength]
    exact apart

/-- Writing the pointer field of a record. -/
theorem setPtr {v : Nat} (layout : Layout idx dat recs head loose) (found : recs o = some e)
    (small : v ≤ ptrMax) :
    Layout (writeAt idx o (ptrText v)) dat
      (Function.update recs o (some { e with ptr := v })) head loose := by
  have inside := layout.index_le found
  have positive := layout.text_pos found
  have valid := layout.valid o e found
  have width := length_ptrText small
  have oldWidth := length_ptrText valid.ptr_le
  have valid' : ({ e with ptr := v } : Entry).Valid :=
    ⟨small, valid.line_ge, valid.line_le, valid.key_nul, valid.data_nul, valid.data_pos,
      valid.data_lt⟩
  apply layout.setIndex found _ _ _ valid' _ rfl rfl
  · rw [length_writeAt, width]
    omega
  · -- Only the first field of the record changes.
    have stands := layout.index o e found
    simp only [Slot.text, Slot.fixed, List.append_assoc] at stands ⊢
    rw [holds_append] at stands ⊢
    refine ⟨holds_writeAt _ _ _, ?_⟩
    rw [width]
    rw [oldWidth] at stands
    apply stands.2.writeAt_apart
    rw [width]
    omega
  · intro off bytes holds apart
    apply holds.writeAt_apart
    rw [width]
    omega
  · rw [valid'.length_text, valid.length_text]
    rfl

/-- Overwriting the data of a record with data of the same length. -/
theorem setData {d : Bytes} (layout : Layout idx dat recs head loose)
    (found : recs o = some e) (sameLength : d.length = e.data.length) (noNul : 0 ∉ d) :
    Layout idx (writeAt dat e.datoff (d ++ [newline]))
      (Function.update recs o (some { e with data := d })) head loose := by
  have sameText : ({ e with data := d } : Entry).text = e.text := by
    simp only [Slot.text, Slot.fixed, Slot.line, sameLength]
  have sameLine : ({ e with data := d } : Entry).line = e.line := by
    simp only [Slot.line, sameLength]
  have valid := layout.valid o e found
  have old : pieces recs loose (.inl o) = some (e.datoff, e.data) := by simp [pieces, found]
  have inside := layout.data_le old
  have valid' : ({ e with data := d } : Entry).Valid := by
    refine ⟨valid.ptr_le, ?_, ?_, valid.key_nul, noNul, ?_, ?_⟩
    · rw [sameLine]
      exact valid.line_ge
    · rw [sameLine]
      exact valid.line_le
    · rw [sameLength]
      exact valid.data_pos
    · rw [sameLength]
      exact valid.data_lt
  -- Every data record has its old extent.
  have before : ∀ x off d',
      pieces (Function.update recs o (some { e with data := d })) loose x = some (off, d') →
        ∃ d₀, pieces recs loose x = some (off, d₀) ∧ d'.length = d₀.length ∧
          (x ≠ .inl o → d' = d₀) := by
    intro x off d' found'
    by_cases same : x = .inl o
    · rw [same] at found' ⊢
      simp only [pieces, Function.update_self, Option.map_some, Option.some.injEq,
        Prod.mk.injEq] at found'
      rw [old]
      exact ⟨e.data, by rw [found'.1], by rw [← found'.2, sameLength],
        fun differ => absurd rfl differ⟩
    · refine ⟨d', ?_, rfl, fun _ => rfl⟩
      cases x with
      | inl o' =>
        have differ : o' ≠ o := fun eq => same (congrArg Sum.inl eq)
        simpa only [pieces, Function.update_of_ne differ] using found'
      | inr p => exact found'
  have index : ∀ o' e₁, Function.update recs o (some { e with data := d }) o' = some e₁ →
      ∃ e₀, recs o' = some e₀ ∧ e₁.text = e₀.text ∧ e₁.Valid := by
    intro o' e₁ found'
    by_cases same : o' = o
    · rw [same, Function.update_self] at found'
      cases found'
      exact ⟨e, same ▸ found, sameText, valid'⟩
    · rw [Function.update_of_ne same] at found'
      exact ⟨e₁, found', rfl, layout.valid o' e₁ found'⟩
  refine
    { table := layout.table
      head_le := layout.head_le
      cells := layout.cells
      valid := ?_, past := ?_, index := ?_, apart := ?_, cover := ?_, data := ?_
      dataApart := ?_ }
  · intro o' e₁ found'
    obtain ⟨e₀, -, -, valid₁⟩ := index o' e₁ found'
    exact valid₁
  · intro o' e₁ found'
    obtain ⟨e₀, found₀, -⟩ := index o' e₁ found'
    exact layout.past o' e₀ found₀
  · intro o' e₁ found'
    obtain ⟨e₀, found₀, text, -⟩ := index o' e₁ found'
    rw [text]
    exact layout.index o' e₀ found₀
  · intro o₁ e₁ o₂ e₂ found₁ found₂ lt
    obtain ⟨e₁', found₁', text, -⟩ := index o₁ e₁ found₁
    obtain ⟨e₂', found₂', -⟩ := index o₂ e₂ found₂
    rw [text]
    exact layout.apart o₁ e₁' o₂ e₂' found₁' found₂' lt
  · intro i low high
    obtain ⟨o₁, e₁, found₁, le, lt⟩ := layout.cover i low high
    by_cases same : o₁ = o
    · subst same
      have sameEntry : e₁ = e := Option.some.inj (found₁.symm.trans found)
      refine ⟨o₁, { e with data := d }, Function.update_self .., le, ?_⟩
      rw [sameText, ← sameEntry]
      exact lt
    · exact ⟨o₁, e₁, by rw [Function.update_of_ne same]; exact found₁, le, lt⟩
  · intro x off d' found'
    obtain ⟨d₀, found₀, len, same⟩ := before x off d' found'
    by_cases here : x = .inl o
    · subst here
      simp only [pieces, Function.update_self, Option.map_some, Option.some.injEq,
        Prod.mk.injEq] at found'
      rw [← found'.1, ← found'.2]
      exact holds_writeAt _ _ _
    · rw [same here]
      apply (layout.data x off d₀ found₀).writeAt_apart
      have apart := layout.dataApart x (.inl o) off d₀ e.datoff e.data here found₀ old
      simp only [List.length_append, List.length_singleton, sameLength]
      exact apart
  · intro x y off d₁ off' d₂ differ found₁ found₂
    obtain ⟨d₁', found₁', len₁, -⟩ := before x off d₁ found₁
    obtain ⟨d₂', found₂', len₂, -⟩ := before y off' d₂ found₂
    rw [len₁, len₂]
    exact layout.dataApart x y off d₁' off' d₂' differ found₁' found₂'

/-- Changing the list that a record belongs to. -/
theorem setOwner (layout : Layout idx dat recs head loose) (found : recs o = some e)
    (owner : Option Place) :
    Layout idx dat (Function.update recs o (some { e with owner := owner })) head loose := by
  exact layout.setIndex found rfl (layout.index o e found) (fun _ _ holds _ => holds)
    (layout.valid o e found) rfl rfl rfl

/-- Data that is in no record may be left out. -/
theorem drop {Q : Type} (layout : Layout idx dat recs head loose) :
    Layout idx dat recs head (fun _ : Q => none) := by
  -- A data record that is left is the one of an index record.
  have old : ∀ x off d, pieces recs (fun _ : Q => none) x = some (off, d) →
      ∃ o, x = .inl o ∧ pieces recs loose (.inl o) = some (off, d) := by
    intro x off d found
    cases x with
    | inl o => exact ⟨o, rfl, found⟩
    | inr q => cases found
  refine { layout with data := ?_, dataApart := ?_ }
  · intro x off d found
    obtain ⟨o, -, before⟩ := old x off d found
    exact layout.data (.inl o) off d before
  · intro x y off d off' d' differ found found'
    obtain ⟨o, rfl, before⟩ := old x off d found
    obtain ⟨o', rfl, before'⟩ := old y off' d' found'
    have apart : o ≠ o' := fun same => differ (congrArg Sum.inl same)
    exact layout.dataApart (.inl o) (.inl o') off d off' d'
      (fun same => apart (Sum.inl.inj same)) before before'

variable [DecidableEq P]

/-- Appending data. -/
theorem appendData {p : P} {d : Bytes} (layout : Layout idx dat recs head loose) :
    Layout idx (writeAt dat dat.length (d ++ [newline])) recs head
      (Function.update loose p (some (dat.length, d))) := by
  -- A data record of the new layout is the new one or an old one.
  have cases_ : ∀ x off d',
      pieces recs (Function.update loose p (some (dat.length, d))) x = some (off, d') →
        (x = .inr p ∧ off = dat.length ∧ d' = d) ∨
          (x ≠ .inr p ∧ pieces recs loose x = some (off, d')) := by
    intro x off d' found
    by_cases here : x = .inr p
    · subst here
      simp only [pieces, Function.update_self, Option.some.injEq, Prod.mk.injEq] at found
      exact .inl ⟨rfl, found.1.symm, found.2.symm⟩
    · refine .inr ⟨here, ?_⟩
      cases x with
      | inl o' => exact found
      | inr q =>
        have differ : q ≠ p := fun eq => here (congrArg Sum.inr eq)
        simpa only [pieces, Function.update_of_ne differ] using found
  refine { layout with data := ?_, dataApart := ?_ }
  · intro x off d' found
    rcases cases_ x off d' found with ⟨-, rfl, rfl⟩ | ⟨-, old⟩
    · exact holds_writeAt _ _ _
    · apply (layout.data x off d' old).writeAt_apart
      have inside := layout.data_le old
      simp only [List.length_append, List.length_singleton]
      omega
  · intro x y off d₁ off' d₂ differ found₁ found₂
    rcases cases_ x off d₁ found₁ with ⟨rfl, rfl, rfl⟩ | ⟨-, old₁⟩
    · rcases cases_ y off' d₂ found₂ with ⟨rfl, -⟩ | ⟨-, old₂⟩
      · exact absurd rfl differ
      · exact .inr (layout.data_le old₂)
    · rcases cases_ y off' d₂ found₂ with ⟨-, rfl, -⟩ | ⟨-, old₂⟩
      · exact .inl (layout.data_le old₁)
      · exact layout.dataApart x y off d₁ off' d₂ differ old₁ old₂

/-- Appending the index record of data appended before. -/
theorem appendRecord {p : P} (layout : Layout idx dat recs head loose) (valid : e.Valid)
    (waiting : loose p = some (e.datoff, e.data)) :
    Layout (writeAt idx idx.length e.text) dat (Function.update recs idx.length (some e)) head
      (Function.update loose p none) := by
  have free := layout.end_free
  have textLength := valid.length_text
  have length : (writeAt idx idx.length e.text).length = idx.length + e.text.length := by
    rw [length_writeAt]
    omega
  have entries : ∀ o' e₁, Function.update recs idx.length (some e) o' = some e₁ →
      (o' = idx.length ∧ e₁ = e) ∨ (o' ≠ idx.length ∧ recs o' = some e₁) := by
    intro o' e₁ found
    by_cases here : o' = idx.length
    · rw [here, Function.update_self] at found
      exact .inl ⟨here, (Option.some.inj found).symm⟩
    · rw [Function.update_of_ne here] at found
      exact .inr ⟨here, found⟩
  -- The data moves from the process to the record.
  have moved : ∀ x off d,
      pieces (Function.update recs idx.length (some e)) (Function.update loose p none) x =
          some (off, d) →
        ∃ y, pieces recs loose y = some (off, d) ∧ (x = .inl idx.length ↔ y = .inr p) ∧
          (x ≠ .inl idx.length → y = x) := by
    intro x off d found
    cases x with
    | inl o' =>
      by_cases here : o' = idx.length
      · subst here
        simp only [pieces, Function.update_self, Option.map_some] at found
        exact ⟨.inr p, waiting.trans found, by simp, fun differ => absurd rfl differ⟩
      · simp only [pieces, Function.update_of_ne here] at found
        exact ⟨.inl o', found, by simp [here], fun _ => rfl⟩
    | inr q =>
      by_cases here : q = p
      · subst here
        simp [pieces] at found
      · simp only [pieces, Function.update_of_ne here] at found
        exact ⟨.inr q, found, by simp [here], fun _ => rfl⟩
  refine
    { table := ?_
      head_le := layout.head_le
      cells := ?_, valid := ?_, past := ?_, index := ?_, apart := ?_, cover := ?_, data := ?_
      dataApart := ?_ }
  · have table := layout.table
    omega
  · intro c
    apply (layout.cells c).writeAt_apart
    have inside := layout.cell_le c
    rw [length_ptrText (layout.head_le c)]
    omega
  · intro o' e₁ found
    rcases entries o' e₁ found with ⟨-, rfl⟩ | ⟨-, old⟩
    · exact valid
    · exact layout.valid o' e₁ old
  · intro o' e₁ found
    rcases entries o' e₁ found with ⟨rfl, -⟩ | ⟨-, old⟩
    · exact layout.table
    · exact layout.past o' e₁ old
  · intro o' e₁ found
    rcases entries o' e₁ found with ⟨rfl, rfl⟩ | ⟨-, old⟩
    · exact holds_writeAt _ _ _
    · apply (layout.index o' e₁ old).writeAt_apart
      have inside := layout.index_le old
      omega
  · intro o₁ e₁ o₂ e₂ found₁ found₂ lt
    rcases entries o₂ e₂ found₂ with ⟨rfl, rfl⟩ | ⟨-, old₂⟩
    · rcases entries o₁ e₁ found₁ with ⟨rfl, -⟩ | ⟨-, old₁⟩
      · omega
      · exact layout.index_le old₁
    · have inside := layout.index_le old₂
      rcases entries o₁ e₁ found₁ with ⟨rfl, -⟩ | ⟨-, old₁⟩
      · omega
      · exact layout.apart o₁ e₁ o₂ e₂ old₁ old₂ lt
  · intro i low high
    by_cases new : idx.length ≤ i
    · exact ⟨idx.length, e, Function.update_self .., new, by omega⟩
    · obtain ⟨o₁, e₁, found₁, le, lt⟩ := layout.cover i low (by omega)
      have differ : o₁ ≠ idx.length := by omega
      exact ⟨o₁, e₁, by rw [Function.update_of_ne differ]; exact found₁, le, lt⟩
  · intro x off d found
    obtain ⟨y, old, -⟩ := moved x off d found
    exact layout.data y off d old
  · intro x y off d off' d' differ found found'
    obtain ⟨x₀, old, isNew, kept⟩ := moved x off d found
    obtain ⟨y₀, old', isNew', kept'⟩ := moved y off' d' found'
    have differ₀ : x₀ ≠ y₀ := by
      intro same
      by_cases new : x = .inl idx.length
      · have new' : y = .inl idx.length := isNew'.mpr (same ▸ isNew.mp new)
        exact differ (new.trans new'.symm)
      · have old₁ : y ≠ .inl idx.length := fun new' =>
          new (isNew.mpr (same ▸ isNew'.mp new'))
        exact differ ((kept new).symm.trans (same.trans (kept' old₁)))
    exact layout.dataApart x₀ y₀ off d off' d' differ₀ old old'

end Layout

end Layout

end Db

end CodeLearning
