import Mathlib.Data.List.Basic

/-!
# Files as byte lists

A file is the list of its bytes. `readAt` and `writeAt` are a positioned read and a
positioned write that is complete, as `lseek` followed by `read` or `write` performs them;
`Holds` says which bytes stand at an offset. The lemmas say which `Holds` facts a write
makes true and which it keeps.
-/

namespace CodeLearning

/-- A sequence of bytes: a string, a buffer or the content of a file. -/
abbrev Bytes := List UInt8

namespace ByteFile

/-- The bytes that a read of `len` bytes at `off` returns; fewer at the end of the file. -/
def readAt (file : Bytes) (off len : Nat) : Bytes := (file.drop off).take len

/-- The file after `bytes` are written at `off`; a gap past the old end reads as zeros. -/
def writeAt (file : Bytes) (off : Nat) (bytes : Bytes) : Bytes :=
  (file ++ List.replicate (off - file.length) 0).take off ++ bytes ++
    file.drop (off + bytes.length)

/-- The bytes stand in the file at the offset. -/
def Holds (file : Bytes) (off : Nat) (bytes : Bytes) : Prop :=
  ∀ i, i < bytes.length → file[off + i]? = bytes[i]?

variable {file bytes first second written : Bytes} {off other i : Nat}

/-- Bytes that stand in the file lie within it. -/
theorem Holds.le_length (holds : Holds file off bytes) (nonempty : 0 < bytes.length) :
    off + bytes.length ≤ file.length := by
  have last := holds (bytes.length - 1) (by omega)
  have inside : off + (bytes.length - 1) < file.length := by
    by_contra outside
    rw [List.getElem?_eq_none (by omega), List.getElem?_eq_getElem (by omega)] at last
    cases last
  omega

/-- A read returns the bytes that stand at its offset. -/
theorem Holds.readAt_eq (holds : Holds file off bytes) :
    readAt file off bytes.length = bytes := by
  apply List.ext_getElem?
  intro i
  by_cases inside : i < bytes.length
  · rw [readAt, List.getElem?_take_of_lt inside, List.getElem?_drop, holds i inside]
  · have shorter : (readAt file off bytes.length).length ≤ bytes.length := by
      simp only [readAt, List.length_take]
      omega
    rw [List.getElem?_eq_none (by omega), List.getElem?_eq_none (by omega)]

/-- Two strings stand one after the other exactly when each stands in its place. -/
theorem holds_append :
    Holds file off (first ++ second) ↔
      Holds file off first ∧ Holds file (off + first.length) second := by
  constructor
  · intro holds
    constructor
    · intro i inside
      rw [holds i (by simp; omega), List.getElem?_append_left inside]
    · intro i inside
      have shifted := holds (first.length + i) (by simp; omega)
      rw [List.getElem?_append_right (by omega)] at shifted
      rw [Nat.add_assoc, shifted]
      congr 1
      omega
  · rintro ⟨head, tail⟩ i inside
    by_cases left : i < first.length
    · rw [head i left, List.getElem?_append_left left]
    · have right := tail (i - first.length) (by simp at inside; omega)
      rw [List.getElem?_append_right (by omega), ← right]
      congr 1
      omega

/-- Bytes stand where they were put together. -/
theorem holds_middle (before after_ : Bytes) :
    Holds (before ++ (bytes ++ after_)) before.length bytes := by
  intro i inside
  rw [List.getElem?_append_right (by omega), Nat.add_sub_cancel_left,
    List.getElem?_append_left inside]

/-- A row of equal cells holds the cell at each of its places. -/
theorem holds_replicate {cell rest : Bytes} {n : Nat} (lt : i < n) :
    Holds ((List.replicate n cell).flatten ++ rest) (i * cell.length) cell := by
  have cells : List.replicate n cell =
      List.replicate i cell ++ cell :: List.replicate (n - i - 1) cell := by
    rw [← List.replicate_succ, List.replicate_append_replicate]
    congr 1
    omega
  have before : (List.replicate i cell).flatten.length = i * cell.length := by
    simp [List.length_flatten]
  rw [cells, List.flatten_append, List.flatten_cons, ← before, List.append_assoc,
    List.append_assoc]
  exact holds_middle _ _

/-- The first write to an empty file. -/
theorem writeAt_empty (bytes : Bytes) : writeAt [] 0 bytes = bytes := by
  simp [writeAt]

/-- Byte of a file after a write, which may leave a gap. -/
theorem getElem?_writeAt (file : Bytes) (off : Nat) (bytes : Bytes) (i : Nat) :
    (writeAt file off bytes)[i]? =
      if i < off then (file ++ List.replicate (off - file.length) 0)[i]?
      else if i < off + bytes.length then bytes[i - off]?
      else file[i]? := by
  have short : ((file ++ List.replicate (off - file.length) 0).take off).length = off := by
    simp
    omega
  unfold writeAt
  rw [List.append_assoc]
  split
  · rename_i before
    rw [List.getElem?_append_left (by omega), List.getElem?_take_of_lt before]
  · rename_i after
    rw [List.getElem?_append_right (by omega), short]
    split
    · rename_i inside
      rw [List.getElem?_append_left (by omega)]
    · rename_i outside
      rw [List.getElem?_append_right (by omega), List.getElem?_drop]
      congr 1
      omega

/-- Length of a file after a write. -/
theorem length_writeAt (file : Bytes) (off : Nat) (bytes : Bytes) :
    (writeAt file off bytes).length = max file.length (off + bytes.length) := by
  unfold writeAt
  simp
  omega

/-- A write puts its bytes in the file, also past its end. -/
theorem holds_writeAt (file : Bytes) (off : Nat) (bytes : Bytes) :
    Holds (writeAt file off bytes) off bytes := by
  intro i inside
  rw [getElem?_writeAt, if_neg (by omega), if_pos (by omega)]
  congr 1
  omega

/-- A write keeps what stands apart from it, also when it leaves a gap. -/
theorem Holds.writeAt_apart (holds : Holds file off bytes)
    (apart : off + bytes.length ≤ other ∨ other + written.length ≤ off) :
    Holds (writeAt file other written) off bytes := by
  intro i inside
  have within := holds.le_length (by omega)
  rw [getElem?_writeAt]
  rcases apart with before | after
  · rw [if_pos (by omega), List.getElem?_append_left (by omega), holds i inside]
  · rw [if_neg (by omega), if_neg (by omega), holds i inside]

end ByteFile

end CodeLearning
