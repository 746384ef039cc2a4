import CodeLearning.Db.Code

/-!
# Index records

A `Slot` is what one index record says together with the data it points to. `Slot.text` is
the record as `_db_writeidx` writes it; the lemmas say that `_db_readidx` reads back what
was written, and that a key with a separator in it makes a record that cannot be read.
-/

namespace CodeLearning

namespace Db

open FileProgram Decimal

/-- An index record and its data. -/
structure Slot where
  /-- Offset of the next record of the list. -/
  ptr : Nat
  /-- The key; blanks once the record is free. -/
  key : Bytes
  /-- Offset of the data record. -/
  datoff : Nat
  /-- The data, without its newline. -/
  data : Bytes
  deriving DecidableEq

/-- A pointer field. -/
def ptrText (ptr : Nat) : Bytes := padLeft ptrSz (decimal ptr)

namespace Slot

/-- The record from its key on. -/
def line (slot : Slot) : Bytes := idxText slot.key slot.datoff (slot.data.length + 1)

/-- The two fields of fixed width. -/
def fixed (slot : Slot) : Bytes :=
  ptrText slot.ptr ++ padLeft idxlenSz (decimal slot.line.length)

/-- The index record. -/
def text (slot : Slot) : Bytes := slot.fixed ++ slot.line

/-- The data record. -/
def datText (slot : Slot) : Bytes := slot.data ++ [newline]

/-- The record fits its fields, and its strings are strings. -/
structure Valid (slot : Slot) : Prop where
  /-- The pointer fits its field. -/
  ptr_le : slot.ptr ≤ ptrMax
  /-- The record is not too short. -/
  line_ge : idxlenMin ≤ slot.line.length
  /-- The record is not too long. -/
  line_le : slot.line.length ≤ idxlenMax
  /-- The key is a string. -/
  key_nul : 0 ∉ slot.key
  /-- The data is a string. -/
  data_nul : 0 ∉ slot.data
  /-- There is data. -/
  data_pos : 0 < slot.data.length
  /-- The data is not too long. -/
  data_lt : slot.data.length < datlenMax

end Slot

/-! ## Fields of fixed width -/

/-- A pointer that fits is as wide as its field. -/
theorem length_ptrText {ptr : Nat} (small : ptr ≤ ptrMax) : (ptrText ptr).length = ptrSz := by
  apply length_padLeft
  apply length_decimal_le (by decide)
  have bound : ptrMax < 10 ^ ptrSz := by decide
  omega

/-- A pointer reads back. -/
theorem atol_ptrText (ptr : Nat) : atol (ptrText ptr) = ptr := atol_padLeft ptrSz ptr

/-- A record length that fits is as wide as its field. -/
theorem length_lenText {len : Nat} (small : len ≤ idxlenMax) :
    (padLeft idxlenSz (decimal len)).length = idxlenSz := by
  apply length_padLeft
  apply length_decimal_le (by decide)
  have bound : idxlenMax < 10 ^ idxlenSz := by decide
  omega

/-- `size_t` holds every length the library accepts. -/
theorem sizeT_ofNat {n : Nat} (small : n < 2 ^ 64) : sizeT n = n := by
  simp only [sizeT]
  omega

namespace Slot

variable {slot : Slot}

/-- Width of the two fixed fields. -/
theorem Valid.length_fixed (valid : slot.Valid) : slot.fixed.length = ptrSz + idxlenSz := by
  rw [fixed, List.length_append, length_ptrText valid.ptr_le, length_lenText valid.line_le]

/-- Length of a record. -/
theorem Valid.length_text (valid : slot.Valid) :
    slot.text.length = ptrSz + idxlenSz + slot.line.length := by
  rw [text, List.length_append, valid.length_fixed]

/-- The pointer reads back. -/
theorem Valid.atol_ptr (valid : slot.Valid) : atol (slot.fixed.take ptrSz) = slot.ptr := by
  have width := length_ptrText valid.ptr_le
  rw [fixed, ← width, List.take_left, atol_ptrText]

/-- The length reads back. -/
theorem Valid.sizeT_len (valid : slot.Valid) :
    sizeT (atol (slot.fixed.drop ptrSz)) = slot.line.length := by
  have width := length_ptrText valid.ptr_le
  have bound := valid.line_le
  rw [fixed, ← width, List.drop_left, atol_padLeft]
  apply sizeT_ofNat
  simp only [idxlenMax] at bound
  omega

end Slot

/-! ## Separators -/

/-- `strchr` splits at the first separator. -/
theorem strchrSep_append {before after_ : Bytes} (first : sep ∉ before) :
    strchrSep (before ++ sep :: after_) = some (before, after_) := by
  have pass : ∀ c ∈ before, decide (c ≠ sep) = true := by
    intro c mem
    apply decide_eq_true
    rintro rfl
    exact first mem
  rw [strchrSep, List.dropWhile_append_of_pos pass, List.takeWhile_append_of_pos pass]
  simp

/-- A text with a separator splits at the first one. -/
theorem exists_first_sep {text : Bytes} (mem : sep ∈ text) :
    ∃ before after_, text = before ++ sep :: after_ ∧ sep ∉ before := by
  induction text with
  | nil => cases mem
  | cons c text rest =>
    by_cases isSep : c = sep
    · exact ⟨[], text, by rw [isSep, List.nil_append], List.not_mem_nil⟩
    · have later : sep ∈ text := by
        rcases List.mem_cons.mp mem with same | later
        · exact absurd same.symm isSep
        · exact later
      obtain ⟨before, after_, split, first⟩ := rest later
      refine ⟨c :: before, after_, by rw [split, List.cons_append], ?_⟩
      intro again
      rcases List.mem_cons.mp again with same | inBefore
      · exact isSep same.symm
      · exact first inBefore

/-- `strchr` finds a separator, and what follows has one separator less. -/
theorem strchrSep_count {text : Bytes} (mem : sep ∈ text) :
    ∃ before after_, strchrSep text = some (before, after_) ∧
      after_.count sep + 1 = text.count sep := by
  obtain ⟨before, after_, split, first⟩ := exists_first_sep mem
  refine ⟨before, after_, by rw [split, strchrSep_append first], ?_⟩
  rw [split, List.count_append, List.count_cons_self, List.count_eq_zero_of_not_mem first]
  omega

/-- The text of a number has no separator. -/
theorem sep_not_mem_decimal (n : Nat) : sep ∉ decimal n := not_mem_decimal (by decide) n

/-! ## The text of a record -/

section Text

variable {key : Bytes} {datoff : Int} {datlen : Nat}

/-- A record without its newline. -/
theorem dropLast_idxText (key : Bytes) (datoff : Int) (datlen : Nat) :
    (idxText key datoff datlen).dropLast = key ++ sep :: (lld datoff ++ sep :: decimal datlen) := by
  rw [idxText, List.dropLast_concat]
  simp

/-- A record ends with a newline. -/
theorem getLast?_idxText (key : Bytes) (datoff : Int) (datlen : Nat) :
    (idxText key datoff datlen).getLast? = some newline := by
  rw [idxText, List.getLast?_append]
  rfl

/-- The text of an offset has neither a NUL nor a separator. -/
theorem not_mem_lld (datoff : Int) : 0 ∉ lld datoff ∧ sep ∉ lld datoff := by
  constructor
  · intro mem
    rcases mem_lld mem with same | digit
    · exact absurd same (by decide)
    · exact absurd digit (by decide)
  · intro mem
    rcases mem_lld mem with same | digit
    · exact absurd same (by decide)
    · exact absurd digit (by decide)

/-- A record of a string has no NUL. -/
theorem cstr_idxText (noNul : 0 ∉ key) :
    cstr (idxText key datoff datlen).dropLast = (idxText key datoff datlen).dropLast := by
  have noDigit : isDigit 0 = false := by decide
  rw [cstr, List.takeWhile_eq_self_iff, dropLast_idxText]
  intro c mem
  simp only [ne_eq, decide_not, Bool.not_eq_true', decide_eq_false_iff_not]
  rintro rfl
  simp only [List.mem_append, List.mem_cons] at mem
  rcases mem with inKey | isSep | inOff | isSep | inLen
  · exact noNul inKey
  · exact absurd isSep (by decide)
  · exact (not_mem_lld datoff).1 inOff
  · exact absurd isSep (by decide)
  · exact not_mem_decimal noDigit _ inLen

/-- A record whose key has no separator reads back when its numbers are those of data. -/
theorem parseIdx_idxText (noNul : 0 ∉ key) (plain : sep ∉ key) (size : datlen < 2 ^ 64) :
    parseIdx (idxText key datoff datlen).dropLast =
      if datoff < 0 then .error "_db_readidx: starting offset < 0"
      else if datlen = 0 ∨ datlen > datlenMax then .error "_db_readidx: invalid length"
      else .ok { key := key, datoff := datoff, datlen := datlen } := by
  rw [parseIdx, cstr_idxText noNul, dropLast_idxText, strchrSep_append plain]
  simp only [strchrSep_append (not_mem_lld datoff).2, sep_not_mem_decimal, atol_lld, atol_decimal,
    if_false, sizeT_ofNat size]

/-- A record whose key has a separator cannot be read. -/
theorem parseIdx_idxText_sep (noNul : 0 ∉ key) (mem : sep ∈ key) :
    parseIdx (idxText key datoff datlen).dropLast =
      .error "_db_readidx: too many separators" := by
  have three : 3 ≤ (idxText key datoff datlen).dropLast.count sep := by
    have one : 1 ≤ key.count sep := List.count_pos_iff.mpr mem
    rw [dropLast_idxText, List.count_append, List.count_cons_self, List.count_append,
      List.count_cons_self]
    omega
  have first : sep ∈ (idxText key datoff datlen).dropLast := List.count_pos_iff.mp (by omega)
  obtain ⟨before, ptr1, found, fewer⟩ := strchrSep_count first
  have second : sep ∈ ptr1 := List.count_pos_iff.mp (by omega)
  obtain ⟨off, ptr2, found', fewer'⟩ := strchrSep_count second
  have third : sep ∈ ptr2 := List.count_pos_iff.mp (by omega)
  rw [parseIdx, cstr_idxText noNul, found]
  simp only [found', third, if_true]

end Text

namespace Slot

variable {slot : Slot}

/-- A record ends with a newline. -/
theorem getLast?_line (slot : Slot) : slot.line.getLast? = some newline :=
  getLast?_idxText slot.key slot.datoff (slot.data.length + 1)

/-- A record whose key has no separator reads back. -/
theorem Valid.parseIdx_line (valid : slot.Valid) (plain : sep ∉ slot.key) :
    parseIdx slot.line.dropLast =
      .ok { key := slot.key, datoff := slot.datoff, datlen := slot.data.length + 1 } := by
  have small := valid.data_lt
  simp only [datlenMax] at small
  have forward : ¬ (slot.datoff : Int) < 0 := by omega
  have fits : ¬ (slot.data.length + 1 = 0 ∨ slot.data.length + 1 > datlenMax) := by
    unfold datlenMax
    omega
  rw [line, parseIdx_idxText valid.key_nul plain (by omega), if_neg forward, if_neg fits]

/-- A record whose key has a separator cannot be read. -/
theorem Valid.parseIdx_sep (valid : slot.Valid) (mem : sep ∈ slot.key) :
    parseIdx slot.line.dropLast = .error "_db_readidx: too many separators" :=
  parseIdx_idxText_sep valid.key_nul mem

/-- Data reads back. -/
theorem Valid.cstr_data (valid : slot.Valid) : cstr slot.datText.dropLast = slot.data := by
  have plain : slot.datText.dropLast = slot.data := by simp [datText]
  rw [plain, cstr, List.takeWhile_eq_self_iff]
  intro c mem
  simp only [ne_eq, decide_not, Bool.not_eq_true', decide_eq_false_iff_not]
  rintro rfl
  exact valid.data_nul mem

/-- A data record ends with a newline. -/
theorem getLast?_datText (slot : Slot) : slot.datText.getLast? = some newline := by
  simp [datText]

/-- Length of a data record. -/
theorem length_datText (slot : Slot) : slot.datText.length = slot.data.length + 1 := by
  simp [datText]

/-- Length of a record: its key, its two numbers, two separators and the newline. -/
theorem length_line (slot : Slot) :
    slot.line.length =
      slot.key.length + (decimal slot.datoff).length + (decimal (slot.data.length + 1)).length +
        3 := by
  simp only [line, idxText, lld_ofNat, List.length_append, List.length_cons, List.length_nil]
  omega

end Slot

/-! ## Handles -/

section Handles

variable {db db' db'' : DB}

/-- The fields that tell which bytes a call locks are kept. -/
structure Kept (db db' : DB) : Prop where
  /-- The chain. -/
  chainoff : db'.chainoff = db.chainoff
  /-- The start of the table. -/
  hashoff : db'.hashoff = db.hashoff
  /-- The size of the table. -/
  nhash : db'.nhash = db.nhash

/-- Nothing changes. -/
theorem Kept.refl (db : DB) : Kept db db := ⟨rfl, rfl, rfl⟩

/-- What is kept twice is kept. -/
theorem Kept.trans (first : Kept db db') (second : Kept db' db'') : Kept db db'' :=
  ⟨second.chainoff.trans first.chainoff, second.hashoff.trans first.hashoff,
    second.nhash.trans first.nhash⟩

/-- The handle of a database with the default table. -/
structure Standard (db : DB) : Prop where
  /-- The table starts after the pointer to the free list. -/
  hashoff : db.hashoff = hashOff
  /-- The table has the default size. -/
  nhash : db.nhash = nhashDef

/-- The sizes of the table are kept. -/
theorem Standard.kept (standard : Standard db) (kept : Kept db db') : Standard db' :=
  ⟨kept.hashoff.trans standard.hashoff, kept.nhash.trans standard.nhash⟩

/-- The handle after an index record was read. -/
structure Loaded (db db' : DB) (o : Nat) (slot : Slot) : Prop extends Kept db db' where
  /-- Offset of the record. -/
  idxoff : db'.idxoff = o
  /-- Its pointer. -/
  ptrval : db'.ptrval = slot.ptr
  /-- Its key. -/
  idxbuf : db'.idxbuf = slot.key
  /-- Offset of its data. -/
  datoff : db'.datoff = slot.datoff
  /-- Length of its data. -/
  datlen : db'.datlen = slot.data.length + 1
  /-- The pointer to the record is looked after by the caller. -/
  ptroff : db'.ptroff = db.ptroff

end Handles

end Db

end CodeLearning
