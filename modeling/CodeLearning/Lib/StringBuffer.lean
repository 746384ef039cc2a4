import CodeLearning.Lib.ByteFile

/-!
# Strings in a buffer

A buffer of C is a list of bytes, and the string in it ends before its first NUL. What is written
outside of the buffer has no defined effect: the operations return `none` then. A buffer that holds
a string keeps the front of it through writes behind that front.
-/

namespace CodeLearning

namespace StringBuffer

/-- The string at the start of a buffer; `none` when nothing ends it. -/
def stringOf (buffer : Bytes) : Option Bytes :=
  if 0 ∈ buffer then some (buffer.takeWhile (· ≠ 0)) else none

/-- A byte put into a buffer. -/
def put (buffer : Bytes) (i : Nat) (c : UInt8) : Option Bytes :=
  if i < buffer.length then some (buffer.set i c) else none

/-- `strcpy` of a text to a place of a buffer. -/
def strcpyAt (buffer : Bytes) (place : Nat) (text : Bytes) : Option Bytes :=
  if place + text.length + 1 ≤ buffer.length then
    some (buffer.take place ++ text ++ 0 :: buffer.drop (place + text.length + 1))
  else none

/-- `realloc`; new bytes are what the memory holds. -/
def realloc (memory : Nat → UInt8) (buffer : Bytes) (size : Nat) : Bytes :=
  (buffer ++ (List.range' buffer.length (size - buffer.length)).map memory).take size

/-- The string in the buffer is this text. -/
def Contains (buffer text : Bytes) : Prop := 0 ∉ text ∧ text ++ [0] <+: buffer

variable {buffer front text : Bytes} {size : Nat} {c : UInt8}

/-- The string of a buffer. -/
theorem Contains.stringOf_eq (holds : Contains buffer text) : stringOf buffer = some text := by
  obtain ⟨noNul, tail, rfl⟩ := holds
  have plain : ∀ c ∈ text, decide (c ≠ 0) = true := by
    intro c mem
    rw [decide_eq_true_iff]
    rintro rfl
    exact noNul mem
  rw [stringOf, if_pos (by simp), List.append_assoc, List.takeWhile_append_of_pos plain]
  simp

/-- A string has its NUL in the buffer. -/
theorem Contains.length_lt (holds : Contains buffer text) : text.length < buffer.length := by
  have bound := holds.2.length_le
  rw [List.length_append, List.length_singleton] at bound
  omega

/-- A buffer starts with its string. -/
theorem Contains.isPrefix (holds : Contains buffer text) : text <+: buffer :=
  (List.prefix_append text [0]).trans holds.2

/-- A longer buffer of the same content holds the same string. -/
theorem Contains.realloc (holds : Contains buffer text) (memory : Nat → UInt8)
    (longer : buffer.length ≤ size) :
    Contains (realloc memory buffer size) text ∧
      (StringBuffer.realloc memory buffer size).length = size := by
  refine ⟨⟨holds.1, holds.2.trans ?_⟩, ?_⟩
  · rw [StringBuffer.realloc, List.take_append]
    rw [List.take_of_length_le longer]
    exact List.prefix_append _ _
  · rw [StringBuffer.realloc, List.length_take, List.length_append, List.length_map,
      List.length_range']
    omega

/-- `strcpy` behind the front of a buffer. -/
theorem strcpyAt_spec (starts : front <+: buffer) (noNul : 0 ∉ front) (noNul' : 0 ∉ text)
    (room : front.length + text.length + 1 ≤ buffer.length) :
    ∃ buffer', strcpyAt buffer front.length text = some buffer' ∧
      Contains buffer' (front ++ text) ∧ buffer'.length = buffer.length := by
  refine ⟨_, if_pos room, ⟨?_, ?_⟩, ?_⟩
  · intro mem
    rcases List.mem_append.mp mem with inFront | inText
    · exact noNul inFront
    · exact noNul' inText
  · obtain ⟨tail, rfl⟩ := starts
    rw [List.take_left]
    exact ⟨_, by rw [List.append_assoc (front ++ text)]; rfl⟩
  · simp only [List.length_append, List.length_take, List.length_cons, List.length_drop]
    omega

/-- A character put behind a string, and a NUL behind it. -/
theorem Contains.push (holds : Contains buffer text) (notNul : c ≠ 0)
    (room : text.length + 2 ≤ buffer.length) :
    ∃ buffer₁ buffer₂, put buffer text.length c = some buffer₁ ∧
      put buffer₁ (text.length + 1) 0 = some buffer₂ ∧ Contains buffer₂ (text ++ [c]) ∧
      buffer₂.length = buffer.length := by
  obtain ⟨noNul, tail, rfl⟩ := holds
  have inside : text.length < (text ++ [0] ++ tail).length := by omega
  obtain ⟨d, tail, rfl⟩ : ∃ d rest, tail = d :: rest := by
    cases tail with
    | nil => simp at room
    | cons d rest => exact ⟨d, rest, rfl⟩
  have first : (text ++ [0] ++ d :: tail).set text.length c = text ++ [c] ++ d :: tail := by
    rw [List.append_assoc, List.set_append_right _ _ (Nat.le_refl _), Nat.sub_self,
      List.append_assoc]
    rfl
  have second : (text ++ [c] ++ d :: tail).set (text.length + 1) 0 = text ++ [c] ++ 0 :: tail := by
    rw [List.set_append_right _ _ (by simp)]
    simp
  have length : (text ++ [c] ++ d :: tail).length = (text ++ [0] ++ d :: tail).length := by simp
  refine ⟨text ++ [c] ++ d :: tail, text ++ [c] ++ 0 :: tail, ?_, ?_, ⟨?_, tail, ?_⟩, ?_⟩
  · rw [put, if_pos inside, first]
  · rw [put, if_pos (by omega), second]
  · intro mem
    rcases List.mem_append.mp mem with inText | inC
    · exact noNul inText
    · exact notNul (List.mem_singleton.mp inC).symm
  · rw [List.append_assoc (text ++ [c])]
    rfl
  · simp

/-- A byte put behind the front of a buffer. -/
theorem put_spec (starts : front <+: buffer) (room : front.length < buffer.length) :
    ∃ buffer', put buffer front.length c = some buffer' ∧ front <+: buffer' ∧
      buffer'.length = buffer.length := by
  obtain ⟨tail, rfl⟩ := starts
  refine ⟨_, if_pos room, ?_, List.length_set⟩
  rw [List.set_append_right _ _ (Nat.le_refl _)]
  exact List.prefix_append _ _

end StringBuffer

end CodeLearning
