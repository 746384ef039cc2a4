import Mathlib.Data.List.Basic

/-!
# Sections of a Markdown file

`readfile` yields the lines of a file in sections. It carries the lines of the open section and
yields them at a bare newline. There is no yield after the loop, so that the lines after the last
bare newline are carried to the end of the file and lost.
-/

namespace CodeLearning.Markdown

/-- The line that is only a newline. -/
def newline : List UInt8 := [10]

/-- The lines of a file, each with the newline that ends it. -/
def fileLines : List UInt8 → List (List UInt8)
  | [] => []
  | c :: rest =>
    if c = 10 then newline :: fileLines rest
    else
      match fileLines rest with
      | [] => [[c]]
      | line :: later => (c :: line) :: later

/-- The loop of `readfile` with the section that it carries: the sections that it yields, and
whether a line cannot be decoded, which ends it. -/
def readLoop {Text : Type} (decode : List UInt8 → Option Text) :
    List Text → List (List UInt8) → List (List Text) × Bool
  | _, [] => ([], false)
  | carried, line :: rest =>
    if line ≠ newline then
      match decode line with
      | none => ([], true)
      | some text => readLoop decode (carried ++ [text]) rest
    else (carried :: (readLoop decode [] rest).1, (readLoop decode [] rest).2)

/-- `readFromTxt.readfile` of a file with this content. -/
def readfile {Text : Type} (decode : List UInt8 → Option Text) (content : List UInt8) :
    List (List Text) × Bool := readLoop decode [] (fileLines content)

/-- The lines other than bare newlines. -/
def textLines (lines : List (List UInt8)) : List (List UInt8) :=
  lines.filter fun line => line ≠ newline

/-- The number of bare newlines before a text line, which is given by its number among them. -/
def blanksBefore : List (List UInt8) → Nat → Nat
  | [], _ => 0
  | line :: rest, k =>
    if line = newline then blanksBefore rest k + 1
    else
      match k with
      | 0 => 0
      | k + 1 => blanksBefore rest k

/-- The section in which an element of the concatenation stands. -/
def sectionOf {α : Type} : List (List α) → Nat → Nat
  | [], _ => 0
  | first :: rest, k => if k < first.length then 0 else sectionOf rest (k - first.length) + 1

/-- The sections are those of the lines: together they are the text lines in order, and two
consecutive text lines are in one section exactly when no bare newline stands between them. -/
structure SplitsAtBlanks {Text : Type} (decode : List UInt8 → Option Text)
    (lines : List (List UInt8)) (sections : List (List Text)) : Prop where
  /-- The concatenation is the text lines. -/
  concatenation : sections.flatten.map some = (textLines lines).map decode
  /-- A section ends where a bare newline stands. -/
  together : ∀ k, k + 1 < (textLines lines).length →
    (sectionOf sections k = sectionOf sections (k + 1) ↔
      blanksBefore lines k = blanksBefore lines (k + 1))

section Sections

variable {Text : Type} {decode : List UInt8 → Option Text} {carried : List Text}
  {line : List UInt8} {lines : List (List UInt8)}

/-- The text lines of a list with a bare newline in front. -/
@[simp] theorem textLines_newline : textLines (newline :: lines) = textLines lines := by
  simp [textLines]

/-- The text lines of a list with a text line in front. -/
theorem textLines_text (text : line ≠ newline) :
    textLines (line :: lines) = line :: textLines lines := by
  simp [textLines, text]

/-- A bare newline in front stands before every text line. -/
theorem blanksBefore_newline (k : Nat) :
    blanksBefore (newline :: lines) k = blanksBefore lines k + 1 := by
  rw [blanksBefore.eq_def]
  exact if_pos rfl

/-- Nothing stands before a text line in front. -/
theorem blanksBefore_zero (text : line ≠ newline) : blanksBefore (line :: lines) 0 = 0 := by
  rw [blanksBefore.eq_def]
  exact if_neg text

/-- A text line in front is not a bare newline. -/
theorem blanksBefore_succ (text : line ≠ newline) (k : Nat) :
    blanksBefore (line :: lines) (k + 1) = blanksBefore lines k := by
  rw [blanksBefore.eq_def]
  exact if_neg text

/-- The last line, if there is one, is a bare newline. -/
def EndsBlank (lines : List (List UInt8)) : Prop :=
  ∀ last, lines.getLast? = some last → last = newline

/-- A list with a bare newline in front ends with one if the rest does. -/
theorem endsBlank_newline : EndsBlank (newline :: lines) ↔ EndsBlank lines := by
  cases lines with
  | nil => simp [EndsBlank]
  | cons line rest => simp [EndsBlank, List.getLast?_cons_cons]

/-- A list with a text line in front ends with a bare newline if the rest does and there is one. -/
theorem endsBlank_text (text : line ≠ newline) :
    EndsBlank (line :: lines) ↔ lines ≠ [] ∧ EndsBlank lines := by
  cases lines with
  | nil => simp [EndsBlank, text]
  | cons other rest => simp [EndsBlank, List.getLast?_cons_cons]

/-- The sections hold what is carried and all text lines exactly when every text line can be
decoded and nothing is carried at the end. -/
theorem flatten_readLoop_iff :
    (readLoop decode carried lines).1.flatten.map some =
        carried.map some ++ (textLines lines).map decode ↔
      (∀ line ∈ textLines lines, (decode line).isSome) ∧ (lines = [] → carried = []) ∧
        EndsBlank lines := by
  induction lines generalizing carried with
  | nil =>
    have none_ : EndsBlank [] := fun last isLast => by cases isLast
    cases carried with
    | nil => simp [readLoop, textLines, none_]
    | cons text rest => simp [readLoop, textLines]
  | cons line rest before =>
    by_cases text : line = newline
    · rw [readLoop, if_neg (by simp [text]), text, endsBlank_newline]
      have later := @before []
      simp only [List.map_nil, List.nil_append, implies_true, true_and] at later
      simp only [List.flatten_cons, List.map_append, List.append_cancel_left_eq, textLines_newline,
        later, List.cons_ne_nil, false_imp_iff, true_and]
    · rw [readLoop, if_pos text, textLines_text text, endsBlank_text text]
      cases decoded : decode line with
      | none => simp [decoded]
      | some here =>
        have later := @before (carried ++ [here])
        simp only [List.map_append, List.map_cons, List.map_nil, List.append_assoc,
          List.singleton_append] at later
        simp only [List.map_cons, decoded, later, List.forall_mem_cons, Option.isSome_some,
          true_and, List.append_eq_nil_iff, and_false, imp_false, List.cons_ne_nil,
          false_imp_iff]

/-- What is carried is in the first section. -/
theorem sectionOf_carried {k : Nat} (inside : k < carried.length) :
    sectionOf (readLoop decode carried lines).1 k = 0 := by
  induction lines generalizing carried with
  | nil => rfl
  | cons line rest before =>
    by_cases text : line = newline
    · rw [readLoop, if_neg (by simp [text]), sectionOf, if_pos inside]
    · rw [readLoop, if_pos text]
      cases decode line with
      | none => rfl
      | some here => exact before (by rw [List.length_append]; omega)

/-- A text line is in the section with the number of the bare newlines before it. -/
theorem sectionOf_readLoop (decodes : ∀ line ∈ textLines lines, (decode line).isSome)
    (blank : EndsBlank lines) {k : Nat} (inside : k < (textLines lines).length) :
    sectionOf (readLoop decode carried lines).1 (carried.length + k) = blanksBefore lines k := by
  induction lines generalizing carried k with
  | nil => exact absurd inside (Nat.not_lt_zero k)
  | cons line rest before =>
    by_cases text : line = newline
    · subst text
      rw [textLines_newline] at decodes inside
      rw [readLoop, if_neg (by simp), sectionOf, if_neg (by omega), Nat.add_sub_cancel_left,
        blanksBefore_newline]
      have later := @before [] decodes (endsBlank_newline.mp blank) k inside
      rw [List.length_nil, Nat.zero_add] at later
      rw [later]
    · rw [textLines_text text] at decodes inside
      obtain ⟨here, decoded⟩ := Option.isSome_iff_exists.mp (decodes line List.mem_cons_self)
      rw [readLoop, if_pos text, decoded]
      cases k with
      | zero =>
        rw [blanksBefore_zero text]
        exact sectionOf_carried (by simp)
      | succ k =>
        have later := @before (carried ++ [here])
          (fun other mem => decodes other (List.mem_cons_of_mem _ mem))
          ((endsBlank_text text).mp blank).2 k (by simpa using inside)
        rw [List.length_append, List.length_singleton, Nat.add_assoc, Nat.add_comm 1] at later
        rw [blanksBefore_succ text]
        exact later

end Sections

/-- For every file: the sections that `readfile` yields are those of its lines exactly when every
text line can be decoded and the last line, if there is one, is a bare newline. -/
theorem readfile_iff {Text : Type} (decode : List UInt8 → Option Text) (content : List UInt8) :
    SplitsAtBlanks decode (fileLines content) (readfile decode content).1 ↔
      (∀ line ∈ textLines (fileLines content), (decode line).isSome) ∧
        ∀ last, (fileLines content).getLast? = some last → last = newline := by
  have whole : _ ↔ _ := @flatten_readLoop_iff Text decode [] (fileLines content)
  simp only [List.map_nil, List.nil_append, implies_true, true_and] at whole
  constructor
  · intro splits
    exact whole.mp splits.concatenation
  · intro ⟨decodes, blank⟩
    refine ⟨whole.mpr ⟨decodes, blank⟩, ?_⟩
    intro k inside
    have first := @sectionOf_readLoop Text decode [] _ decodes blank k (by omega)
    have second := @sectionOf_readLoop Text decode [] _ decodes blank (k + 1) inside
    rw [List.length_nil, Nat.zero_add] at first second
    rw [readfile, first, second]

/-- The lines of a file are its content. -/
theorem flatten_fileLines (content : List UInt8) : (fileLines content).flatten = content := by
  induction content with
  | nil => rfl
  | cons c rest before =>
    rw [fileLines]
    by_cases ends : c = 10
    · rw [if_pos ends, List.flatten_cons, before, ends]
      rfl
    · rw [if_neg ends]
      cases lines : fileLines rest with
      | nil =>
        rw [lines] at before
        rw [← before]
        rfl
      | cons line later =>
        rw [lines] at before
        rw [← before]
        rfl

/-- The text of bytes below 128, which is the same in every encoding that extends ASCII. -/
def asciiText (line : List UInt8) : Option (List Char) :=
  if line.all fun c => c < 128 then some (line.map fun c => Char.ofNat c.toNat) else none

/-- A file of one line `a` with its newline: nothing is yielded. -/
theorem readfile_loses_last : fileLines [97, 10] = [[97, 10]] ∧
    readfile asciiText [97, 10] = ([], false) ∧
    ¬ SplitsAtBlanks asciiText (fileLines [97, 10]) (readfile asciiText [97, 10]).1 := by
  refine ⟨by decide, by decide, fun splits => ?_⟩
  exact absurd splits.concatenation (by decide)

end CodeLearning.Markdown
