import CodeLearning.Db.Refinement

/-!
# The files between calls

What the two files look like after any calls that returned, in terms of their bytes alone.
After the hash table the index file is index records and nothing else; the pointers in it
form the free list and the hash chains, without cycles, and every record is on exactly one
of them; the data records do not overlap.
-/

namespace CodeLearning

namespace Db

open FileProgram ByteFile Decimal LinkedList

/-- The pointer that stands in the index file at an offset. -/
def pointerAt (files : File → Bytes) (off : Nat) : Nat :=
  (atol (readAt (files .idx) off ptrSz)).toNat

/-- The records stand one after the other from an offset on. -/
def Consecutive : Nat → List (Nat × Slot) → Prop
  | _, [] => True
  | off, (o, slot) :: records => o = off ∧ Consecutive (off + slot.text.length) records

section Layout

variable {idx dat : Bytes} {recs : Nat → Option Entry} {head : Place → Nat}
  {loose : Unit → Option (Nat × Bytes)}

/-- From an offset that is in no record, the rest of the index file is records. -/
theorem Layout.records_from (layout : Layout idx dat recs head loose) (off : Nat)
    (low : tableEnd ≤ off) (high : off ≤ idx.length)
    (between : ∀ o e, recs o = some e → o + e.text.length ≤ off ∨ off ≤ o) :
    ∃ records : List (Nat × Slot),
      idx.drop off = (records.map fun record => record.2.text).flatten ∧
      Consecutive off records ∧
      ∀ o slot, (o, slot) ∈ records ↔ off ≤ o ∧ ∃ e, recs o = some e ∧ e.toSlot = slot := by
  induction left : idx.length - off using Nat.strong_induction_on generalizing off with
  | _ n step =>
    by_cases atEnd : off = idx.length
    · refine ⟨[], by rw [atEnd, List.drop_length]; rfl, trivial, ?_⟩
      intro o slot
      simp only [List.not_mem_nil, false_iff]
      rintro ⟨past, e, found, -⟩
      have inside := layout.index_le found
      have positive := layout.text_pos found
      simp only [ptrSz, idxlenSz] at positive
      omega
    · -- The byte at the offset is in a record, which can only start there.
      obtain ⟨o, e, found, le, lt⟩ := layout.cover off low (by omega)
      have here : o = off := by
        rcases between o e found with before | after_
        · omega
        · omega
      subst here
      have inside := layout.index_le found
      have positive := layout.text_pos found
      simp only [ptrSz, idxlenSz] at positive
      have between' : ∀ o' e', recs o' = some e' →
          o' + e'.text.length ≤ o + e.text.length ∨ o + e.text.length ≤ o' := by
        intro o' e' found'
        rcases Nat.lt_trichotomy o' o with before | same | after_
        · have apart := layout.apart o' e' o e found' found before
          omega
        · subst same
          rw [Option.some.inj (found'.symm.trans found)]
          exact .inl (Nat.le_refl _)
        · exact .inr (layout.apart o e o' e' found found' after_)
      obtain ⟨records, split, offsets, mem⟩ := step (idx.length - (o + e.text.length)) (by omega)
        (o + e.text.length) (by omega) (by omega) between' rfl
      refine ⟨(o, e.toSlot) :: records, ?_, ⟨rfl, offsets⟩, ?_⟩
      · have stands : (idx.drop o).take e.text.length = e.text :=
          (layout.index o e found).readAt_eq
        rw [List.map_cons, List.flatten_cons, ← split, ← List.drop_drop]
        conv_lhs => rw [← List.take_append_drop e.text.length (idx.drop o), stands]
      · intro o' slot
        rw [List.mem_cons, mem]
        constructor
        · rintro (same | ⟨past, entry⟩)
          · obtain ⟨rfl, rfl⟩ := Prod.mk.inj same
            exact ⟨Nat.le_refl _, e, found, rfl⟩
          · exact ⟨by omega, entry⟩
        · rintro ⟨past, e', found', rfl⟩
          rcases Nat.lt_or_eq_of_le past with after_ | same
          · exact .inr ⟨layout.apart o e o' e' found found' after_, e', found', rfl⟩
          · subst same
            rw [Option.some.inj (found'.symm.trans found)]
            exact .inl rfl

/-- After the table the index file is its records. -/
theorem Layout.records (layout : Layout idx dat recs head loose) :
    ∃ records : List (Nat × Slot),
      idx.drop tableEnd = (records.map fun record => record.2.text).flatten ∧
      Consecutive tableEnd records ∧
      ∀ o slot, (o, slot) ∈ records ↔ ∃ e, recs o = some e ∧ e.toSlot = slot := by
  obtain ⟨records, split, offsets, mem⟩ := layout.records_from tableEnd (Nat.le_refl _)
    layout.table fun o e found => .inr (layout.past o e found)
  refine ⟨records, split, offsets, ?_⟩
  intro o slot
  rw [mem]
  constructor
  · exact fun both => both.2
  · rintro ⟨e, found, same⟩
    exact ⟨layout.past o e found, e, found, same⟩

end Layout

/-- A record of a list is a record that belongs to it. -/
theorem partOf_entries {recs : Nat → Option Entry} {head : Place → Nat} {c : Place} {o : Nat}
    {e : Entry} :
    (partOf recs head c).entries o = some e ↔ recs o = some e ∧ e.owner = some c := by
  simp [partOf, Option.filter_eq_some_iff]

section Image

variable {files : File → Bytes} {kv : KV} {frozen : Fin nhashDef → Prop} {fuel : Nat}

end Image

end Db

end CodeLearning
