import CodeLearning.Db.Codec
import CodeLearning.Db.OnDisk

/-!
# Reading in sequence

`db_nextrec` reads index records from the file offset of the handle on. It passes over those
whose key is blanks and returns the next one with its data. From the start of the records this
gives each record of the index file with another key, in the order of the file, whether a hash
chain leads to it or not.
-/

namespace CodeLearning

namespace Db

open FileProgram ByteFile Decimal

/-! ## Records ahead -/

/-- The record stands in the files and can be read. -/
structure Stands (files : File → Bytes) (o : Nat) (slot : Slot) : Prop where
  /-- It fits its fields. -/
  valid : slot.Valid
  /-- Its key has no separator. -/
  plain : sep ∉ slot.key
  /-- The index record. -/
  index : Holds (files .idx) o slot.text
  /-- The data record. -/
  data : Holds (files .dat) slot.datoff slot.datText

/-- From an offset to its end the index file is these records. -/
def Ahead (files : File → Bytes) : Nat → List (Nat × Slot) → Prop
  | off, [] => off = (files .idx).length
  | off, (o, slot) :: rest =>
    o = off ∧ Stands files o slot ∧ Ahead files (o + slot.text.length) rest

/-- `db_nextrec` returns the record: its key has a byte that is no blank. -/
def live (record : Nat × Slot) : Bool := record.2.key.any fun c => c ≠ space

/-- The key and the data of a record. -/
def pair (record : Nat × Slot) : Bytes × Bytes := (record.2.key, record.2.data)

section Next

variable {files : File → Bytes} {w : World Unit File Note} {db : DB} {o : Nat} {slot : Slot}
  {rest : List (Nat × Slot)} {fuel : Nat}

end Next

/-! ## Scans -/

section Scan

variable {files : File → Bytes} {db : DB} {rest : List (Nat × Slot)} {fuel : Nat}

end Scan

/-! ## The records of a database -/

section Records

variable {files : File → Bytes} {off o bound : Nat} {slot : Slot} {records : List (Nat × Slot)}
  {recs : Nat → Option Entry} {head : Place → Nat}

/-- Records that fill the file are ahead. -/
theorem Ahead.of_records (inside : off ≤ (files .idx).length)
    (split : (files .idx).drop off = (records.map fun record => record.2.text).flatten)
    (offsets : Consecutive off records)
    (stands : ∀ o slot, (o, slot) ∈ records → Stands files o slot) : Ahead files off records := by
  induction records generalizing off with
  | nil =>
    have past := List.drop_eq_nil_iff.mp split
    exact Nat.le_antisymm inside past
  | cons record records rest =>
    obtain ⟨o, slot⟩ := record
    obtain ⟨rfl, later⟩ := offsets
    have here := stands o slot List.mem_cons_self
    have positive : 0 < slot.text.length := by
      rw [here.valid.length_text]
      simp only [ptrSz]
      omega
    have within := here.index.le_length positive
    refine ⟨rfl, here, rest within ?_ later fun o' slot' mem => stands o' slot'
      (List.mem_cons_of_mem _ mem)⟩
    rw [List.map_cons, List.flatten_cons] at split
    rw [← List.drop_drop, split, List.drop_left]

/-- Records ahead are not before the offset. -/
theorem Ahead.le (ahead : Ahead files off records) (mem : (o, slot) ∈ records) : off ≤ o := by
  induction records generalizing off with
  | nil => cases mem
  | cons record records rest =>
    obtain ⟨o', slot'⟩ := record
    obtain ⟨rfl, -, later⟩ := ahead
    rcases List.mem_cons.mp mem with same | inRest
    · cases same
      exact Nat.le_refl _
    · exact Nat.le_trans (Nat.le_add_right _ _) (rest later inRest)

/-- No record is ahead twice. -/
theorem Ahead.nodup (ahead : Ahead files off records) : records.Nodup := by
  induction records generalizing off with
  | nil => exact List.nodup_nil
  | cons record records rest =>
    obtain ⟨o, slot⟩ := record
    obtain ⟨rfl, stands, later⟩ := ahead
    refine List.nodup_cons.mpr ⟨fun mem => ?_, rest later⟩
    have after_ := later.le mem
    rw [stands.valid.length_text] at after_
    simp only [ptrSz] at after_
    omega

/-- Each record takes a byte at least. -/
theorem Ahead.length_le (ahead : Ahead files off records) :
    off + records.length ≤ (files .idx).length := by
  induction records generalizing off with
  | nil => exact Nat.le_of_eq ahead
  | cons record records rest =>
    obtain ⟨o, slot⟩ := record
    obtain ⟨rfl, stands, later⟩ := ahead
    have bound := rest later
    rw [stands.valid.length_text] at bound
    simp only [ptrSz, List.length_cons] at bound ⊢
    omega

/-- The records of a database whose keys have no separator. -/
theorem Layout.ahead (layout : Layout (files .idx) (files .dat) recs head fun _ : Unit => none)
    (plain : ∀ o e, recs o = some e → sep ∉ e.key) :
    ∃ records, Ahead files tableEnd records ∧
      ∀ o slot, (o, slot) ∈ records ↔ ∃ e, recs o = some e ∧ e.toSlot = slot := by
  obtain ⟨records, split, offsets, mem⟩ := layout.records
  refine ⟨records, Ahead.of_records layout.table split offsets ?_, mem⟩
  intro o slot inFile
  obtain ⟨e, found, rfl⟩ := (mem o slot).mp inFile
  exact ⟨layout.valid o e found, plain o e found, layout.index o e found, layout.entry_data found⟩

/-- A record of a list is within reach of a pointer. -/
theorem Image.offset_le {plain whole : Prop} {kv : KV} {frozen : Fin nhashDef → Prop} {e : Entry}
    (image : Image plain whole files kv frozen recs head) (readable : ∀ h, ¬ frozen h)
    (found : recs o = some e) (listed : e.owner ≠ none) : o ≤ ptrMax := by
  obtain ⟨c, owner⟩ := Option.ne_none_iff_exists'.mp listed
  have walks : ∃ l, (partOf recs head c).Walk l := by
    cases c with
    | free => exact image.free.walk
    | chain h => exact (image.chains h (readable h)).walk
  obtain ⟨l, walk⟩ := walks
  have small : ∀ o e, (partOf recs head c).entries o = some e → e.ptr ≤ ptrMax :=
    fun o e entry => (image.layout.valid o e (partOf_entries.mp entry).1).ptr_le
  exact Part.path_le small walk.path (image.layout.head_le c) o
    ((walk.mem o).mpr ⟨e, partOf_entries.mpr ⟨found, owner⟩⟩)

end Records

/-! ## Complete scans -/

/-- A key for which `db_nextrec` can tell a record from a free one. -/
def Visible (key : Bytes) : Prop := ∃ c ∈ key, c ≠ space

section Complete

variable {files : File → Bytes} {kv : KV} {frozen : Fin nhashDef → Prop} {fuel : Nat} {db : DB}

/-- The keys of the calls have no separator and a byte that is no blank. -/
def OrdinaryKeys (calls : List Call) : Prop :=
  PlainKeys calls ∧ AdmittedKeys Visible calls

end Complete

/-! ## An index file that is full -/

/-- A number as a key. -/
def numberKey (n : Nat) : CString := ⟨decimal n, not_mem_decimal (by decide) n⟩

section Full

variable {files : File → Bytes} {fuel n : Nat}

/-- Two numbers are two keys. -/
theorem numberKey_inj {n m : Nat} (same : (numberKey n).bytes = (numberKey m).bytes) : n = m := by
  have values : atol (decimal n) = atol (decimal m) := congrArg atol same
  rw [atol_decimal, atol_decimal] at values
  exact Int.ofNat.inj values

/-- A session that stores a number. -/
def storeNumber (n : Nat) : List Call := [.request (.store (numberKey n) dataB dbInsert)]

/-- Digits are no separators and no blanks. -/
theorem ordinary_storeNumber (n : Nat) : OrdinaryKeys (storeNumber n) := by
  have isStore : ∀ request, Call.request request ∈ storeNumber n → request.key = decimal n := by
    intro request mem
    cases List.mem_singleton.mp mem
    rfl
  constructor
  · intro request mem
    rw [isStore request mem]
    exact not_mem_decimal (by decide) n
  · intro request mem
    rw [isStore request mem]
    obtain ⟨c, digit⟩ := List.exists_mem_of_ne_nil _ (decimal_ne_nil n)
    refine ⟨c, digit, ?_⟩
    rintro rfl
    exact not_mem_decimal (by decide) n digit

/-- The first numbers are stored, and nothing has failed. -/
structure Filled (fuel n : Nat) (files : File → Bytes) (kv : KV) (frozen : Fin nhashDef → Prop) :
    Prop where
  /-- Sessions have made the files. -/
  reachable : Reachable fuel (fun calls _ => OrdinaryKeys calls) files
  /-- The files hold the map. -/
  stored : Stored True True files kv frozen
  /-- The numbers that are stored. -/
  present : ∀ i, i < n → kv (numberKey i).bytes = some dataB.bytes
  /-- The numbers that are not. -/
  absent : ∀ i, n ≤ i → kv (numberKey i).bytes = none
  /-- The data file grows with each of them. -/
  size : (files .dat).length ≤ n * datlenMax

/-- A number was written to the index file and is on no list. -/
structure Overflowed (fuel n : Nat) (files : File → Bytes) (kv : KV)
    (frozen : Fin nhashDef → Prop) : Prop where
  /-- Sessions have made the files. -/
  reachable : Reachable fuel (fun calls _ => OrdinaryKeys calls) files
  /-- The record of the number. -/
  orphaned : Orphaned True files kv frozen (numberKey n).bytes dataB.bytes
  /-- The map does not have it. -/
  absent : kv (numberKey n).bytes = none

variable {kv : KV} {frozen : Fin nhashDef → Prop}

/-- All stored numbers have records with offsets of their own, all within reach. -/
theorem Filled.le (filled : Filled fuel n files kv frozen) : n ≤ ptrMax := by
  have readable := filled.stored.not_frozen
  obtain ⟨recs, head, image⟩ := filled.stored
  have records : ∀ i : Nat, ∃ o, i < n → 1 ≤ o ∧ o ≤ ptrMax ∧
      ∃ e, recs o = some e ∧ e.key = (numberKey i).bytes := by
    intro i
    by_cases below : i < n
    · obtain ⟨o, e, entry, isKey, -⟩ :=
        (image.chains _ (readable _)).exists_entry rfl (filled.present i below)
      obtain ⟨found, owner⟩ := partOf_entries.mp entry
      have near := image.offset_le readable found (by simp [owner])
      have past := image.layout.past o e found
      simp only [tableEnd] at past
      exact ⟨o, fun _ => ⟨by omega, near, e, found, isKey⟩⟩
    · exact ⟨0, fun isBelow => absurd isBelow below⟩
  choose offset stands using records
  have inRange : ∀ i ∈ Finset.range n, offset i ∈ Finset.Icc 1 ptrMax := by
    intro i below
    obtain ⟨low, high, -⟩ := stands i (Finset.mem_range.mp below)
    exact Finset.mem_Icc.mpr ⟨low, high⟩
  have apart : Set.InjOn offset (Finset.range n : Set Nat) := by
    intro i below j below' same
    obtain ⟨-, -, e, found, isKey⟩ := stands i (Finset.mem_range.mp below)
    obtain ⟨-, -, e', found', isKey'⟩ := stands j (Finset.mem_range.mp below')
    rw [same, found'] at found
    rw [Option.some.inj found, isKey] at isKey'
    exact numberKey_inj isKey'
  have counts := Finset.card_le_card_of_injOn offset inRange apart
  rw [Finset.card_range, Nat.card_Icc] at counts
  exact counts

/-- The record of the next number has a length in range. -/
theorem Filled.line_in_range (filled : Filled fuel n files kv frozen) :
    idxlenMin ≤ (idxText (numberKey n).bytes (files .dat).length
        (dataB.bytes.length + 1)).length ∧
      (idxText (numberKey n).bytes (files .dat).length (dataB.bytes.length + 1)).length ≤
        idxlenMax := by
  refine ⟨idxText_ge (decimal_ne_nil n) _ _, ?_⟩
  have small := filled.le
  have size := filled.size
  simp only [ptrMax, datlenMax] at small size
  have keyShort : (decimal n).length ≤ 6 := length_decimal_le (by decide) (by omega)
  have offShort : (decimal (files .dat).length).length ≤ 10 :=
    length_decimal_le (by decide) (by omega)
  have lenShort : (decimal (dataB.bytes.length + 1)).length ≤ 1 := by decide
  simp only [idxText, lld_ofNat, numberKey, List.length_append, List.length_cons, List.length_nil,
    idxlenMax]
  omega

/-- The next number is stored, or its record is written and left without a list. -/
theorem Filled.next (filled : Filled fuel n files kv frozen) (enough : ptrMax < fuel) :
    (∃ files' kv' frozen', Filled fuel (n + 1) files' kv' frozen') ∨
      ∃ files', Overflowed fuel n files' kv frozen := by
  have ordinary := ordinary_storeNumber n
  have absent := filled.absent n (Nat.le_refl n)
  have reachable := filled.reachable.session (storeNumber n) ordinary
  have sized : Request.Sized (.store (numberKey n) dataB dbInsert) :=
    sized_of_bounds (by decide) (by decide)
  have step : (mapStep kv (.store (numberKey n) dataB dbInsert)).2 =
      Function.update kv (numberKey n).bytes (some dataB.bytes) := by
    simp [mapStep, absent, dbInsert, dbReplace]
  have plain : sep ∉ (Request.store (numberKey n) dataB dbInsert).key :=
    not_mem_decimal (by decide) n
  rcases request_ends filled.stored opened_standard enough fun _ => plain with
    ⟨result, db', w, ends, quiet, done⟩ | ⟨failure, w, ends, broke⟩
  · left
    have first : run () (dbCall fuel opened (.request (.store (numberKey n) dataB dbInsert)))
        (atRest files) = (.returned (result, db'), w) := ends
    obtain ⟨-, sameFiles, -⟩ := session_call [] opened_standard first quiet
    obtain ⟨frozen', stored⟩ := done.stored
    have size := done.grown
    rw [step] at stored
    refine ⟨w.files, _, frozen', ?_, stored, ?_, ?_, ?_⟩
    · have made := reachable
      rw [storeNumber, sameFiles] at made
      exact made
    · intro i below
      by_cases same : i = n
      · rw [same, Function.update_self]
      · rw [Function.update_of_ne fun keys => same (numberKey_inj keys)]
        exact filled.present i (by omega)
    · intro i above
      rw [Function.update_of_ne fun keys => by have := numberKey_inj keys; omega]
      exact filled.absent i (by omega)
    · have before := filled.size
      rw [Nat.succ_mul]
      omega
  · right
    have sameFiles : (run () (session fuel opened (storeNumber n)) (atRest files)).2.files =
        w.files := by
      rw [storeNumber, session_cons opened_standard]
      simp only [dbCall, ends]
    rw [sameFiles] at reachable
    cases broke with
    | refused reason _ =>
      cases reason with
      | stuck isFrozen => exact absurd isFrozen (filled.stored.not_frozen _)
      | length bad => exact absurd sized bad
      | full _ _ _ orphan => exact ⟨w.files, reachable, orphan filled.line_in_range, absent⟩
    | lost resizes _ _ _ _ =>
      obtain ⟨old, isOld, -⟩ := resizes
      rw [absent] at isOld
      cases isOld

end Full

end Db

end CodeLearning
