import CodeLearning.Markdown.Rules

/-!
# The lines of a section

Whether a rule applies to a section is a question about the words of its pattern in the section. It
is answered line by line, because most patterns do not cross a line break. A line is given by its
marker and its text, and a word that starts with a character that is in no marker stands in a text.
-/

namespace CodeLearning.Markdown

open Regex

/-- The lines of a section, each ended by a line break. -/
def joinLines (bodies : List Text) : Text := bodies.flatMap fun body => body ++ ['\n']

/-- A marker and a text. -/
abbrev Line := Text × Text

/-- The lines of a section with their markers. -/
def sectionOfLines (lines : List Line) : Text := joinLines (lines.map fun line => line.1 ++ line.2)

/-- A word of a set and white space after it stand in one of the texts, or such a word ends a text
that is not the last one. -/
def SpacedIn (word : Text → Prop) (texts : List Text) : Prop :=
  (∃ text ∈ texts, ∃ u c, word u ∧ isSpace c = true ∧ u ++ [c] <:+: text) ∨
    ∃ before text after, texts = before ++ text :: after ∧ after ≠ [] ∧ ∃ u, word u ∧ u <:+ text

/-- The text ends with an image. -/
def EndsImage (text : Text) : Prop :=
  ∃ alt src : Text, "![".toList ++ (alt ++ ("](".toList ++ (src ++ ")".toList))) <:+ text

/-- A text ends with an image. -/
def ImageIn (texts : List Text) : Prop := ∃ text ∈ texts, EndsImage text

/-- A text ends with a fence and a fence stands in a text before it. -/
def CodeIn (texts : List Text) : Prop :=
  ∃ before text after, texts = before ++ text :: after ∧ "```".toList <:+ text ∧
    ∃ opened ∈ before, "```".toList <:+: opened

/-! ## Line breaks -/

section Lines

variable {bodies before after : List Text} {body a v w t lead : Text}

/-- The first line of a section. -/
theorem joinLines_cons (body : Text) (bodies : List Text) :
    joinLines (body :: bodies) = body ++ '\n' :: joinLines bodies := by
  simp [joinLines]

/-- The lines of two parts. -/
theorem joinLines_append (before after : List Text) :
    joinLines (before ++ after) = joinLines before ++ joinLines after := List.flatMap_append

/-- A section is empty or ends with a line break. -/
theorem joinLines_eq (bodies : List Text) :
    joinLines bodies = [] ∨ ∃ front, joinLines bodies = front ++ ['\n'] := by
  induction bodies with
  | nil => exact Or.inl rfl
  | cons body bodies before =>
    right
    rw [joinLines_cons]
    rcases before with empty | ⟨front, split⟩
    · exact ⟨body, by rw [empty]⟩
    · exact ⟨body ++ '\n' :: front, by rw [split, List.append_assoc, List.cons_append]⟩

/-- Each line break of a section ends one of its lines. -/
theorem joinLines_split (plain : ∀ body ∈ bodies, '\n' ∉ body)
    (split : joinLines bodies = a ++ '\n' :: v) :
    ∃ before body after, bodies = before ++ body :: after ∧ a = joinLines before ++ body ∧
      v = joinLines after := by
  induction bodies generalizing a with
  | nil => simp [joinLines] at split
  | cons first bodies before =>
    have here : '\n' ∉ first := plain first List.mem_cons_self
    rw [joinLines_cons] at split
    rcases List.append_eq_append_iff.mp split with ⟨x, right, left⟩ | ⟨x, right, left⟩
    · cases x with
      | nil =>
        rw [List.append_nil] at right
        simp only [List.nil_append, List.cons.injEq, true_and] at left
        exact ⟨[], first, bodies, rfl, right, left.symm⟩
      | cons c x =>
        simp only [List.cons_append, List.cons.injEq] at left
        obtain ⟨isBreak, left⟩ := left
        obtain ⟨others, body, after, parts, front, back⟩ :=
          before (fun other mem => plain other (List.mem_cons_of_mem _ mem)) left
        refine ⟨first :: others, body, after, by rw [parts]; rfl, ?_, back⟩
        rw [right, front, ← isBreak, joinLines_cons, List.append_assoc, List.cons_append]
    · cases x with
      | nil =>
        rw [List.append_nil] at right
        simp only [List.nil_append, List.cons.injEq, true_and] at left
        exact ⟨[], first, bodies, rfl, right.symm, left⟩
      | cons c x =>
        simp only [List.cons_append, List.cons.injEq] at left
        rw [right, ← left.1] at here
        exact absurd (List.mem_append_right a List.mem_cons_self) here

/-- A word without line breaks at the end of a line is in that line. -/
theorem suffix_of_line (split : a ++ w = joinLines before ++ body) (plain : '\n' ∉ w) :
    w <:+ body := by
  rcases List.append_eq_append_iff.mp split with ⟨x, left, right⟩ | ⟨x, left, right⟩
  · rcases joinLines_eq before with empty | ⟨front, ends⟩
    · rw [empty] at left
      have none_ : x = [] := (List.append_eq_nil_iff.mp left.symm).2
      exact ⟨[], by rw [right, none_, List.nil_append, List.nil_append]⟩
    · rcases List.eq_nil_or_concat x with rfl | ⟨y, c, rfl⟩
      · exact ⟨[], by rw [right, List.nil_append, List.nil_append]⟩
      · rw [ends, List.concat_eq_append, ← List.append_assoc] at left
        have last := (List.append_inj_right' left rfl)
        rw [right, List.concat_eq_append, ← last] at plain
        simp at plain
  · exact ⟨x, right.symm⟩

/-- A word that starts outside the marker of a line is in its text. -/
theorem suffix_of_text {c : Char} (ends : c :: w <:+ lead ++ t) (foreign : c ∉ lead) :
    c :: w <:+ t := by
  obtain ⟨y, split⟩ := ends
  rcases List.append_eq_append_iff.mp split with ⟨x, left, right⟩ | ⟨x, left, right⟩
  · cases x with
    | nil => exact ⟨[], by rw [List.nil_append, ← List.nil_append t, ← right]⟩
    | cons d x =>
      simp only [List.cons_append, List.cons.injEq] at right
      rw [left, right.1] at foreign
      exact absurd (List.mem_append_right y List.mem_cons_self) foreign
  · exact ⟨x, right.symm⟩

end Lines

/-! ## Where the patterns stand -/

section Occurrences

variable {lines : List Line} {i j : Nat} {r : Regex Char} {s a v w : Text}

/-- A line of a section with what is before and after it. -/
theorem sectionOfLines_split (before : List Line) (line : Line) (after : List Line) :
    sectionOfLines (before ++ line :: after) =
      sectionOfLines before ++ (line.1 ++ (line.2 ++ '\n' :: sectionOfLines after)) := by
  rw [sectionOfLines, List.map_append, List.map_cons, joinLines_append, joinLines_cons,
    List.append_assoc line.1]
  rfl

/-- A word before a line break that starts outside the markers ends the text of a line. -/
theorem word_in_line {c : Char} (plain : ∀ line ∈ lines, '\n' ∉ line.1 ++ line.2)
    (foreign : ∀ line ∈ lines, c ∉ line.1) (word : '\n' ∉ c :: w)
    (split : sectionOfLines lines = a ++ (c :: w) ++ '\n' :: v) :
    ∃ before line after, lines = before ++ line :: after ∧ c :: w <:+ line.2 ∧
      v = sectionOfLines after ∧ a ++ (c :: w) = sectionOfLines before ++ (line.1 ++ line.2) := by
  have plainBodies : ∀ body ∈ lines.map (fun line => line.1 ++ line.2), '\n' ∉ body := by
    intro body mem
    obtain ⟨line, here, rfl⟩ := List.mem_map.mp mem
    exact plain line here
  obtain ⟨bodies, body, others, parts, front, back⟩ := joinLines_split plainBodies split
  obtain ⟨before, rest, rfl, rfl, more⟩ := List.map_eq_append_iff.mp parts
  obtain ⟨line, after, rfl, rfl, rfl⟩ := List.map_eq_cons_iff.mp more
  have ends := suffix_of_line front word
  exact ⟨before, line, after, rfl,
    suffix_of_text ends (foreign line (List.mem_append_right _ List.mem_cons_self)), back, front⟩

/-- Where a marker with white space and the rest of a line stands. -/
theorem occurs_spaced : Occurs (spaced i j r) s ↔
    ∃ a x c rest, s = a ++ (x ++ c :: rest) ∧ Regex.Language r x ∧ isSpace c = true ∧
      '\n' ∈ rest := by
  constructor
  · rintro ⟨u, ⟨x, y, rfl, word, z, y, rfl, spaces, t, e, rfl, -, d, isBreak, rfl⟩, a, b, rfl⟩
    obtain ⟨nonempty, all⟩ := language_plus.mp spaces
    cases z with
    | nil => exact absurd rfl nonempty
    | cons c z =>
      refine ⟨a, x, c, z ++ (t ++ [d]) ++ b, by simp, word, all c List.mem_cons_self, ?_⟩
      rw [← eq_of_beq isBreak]
      simp
  · rintro ⟨a, x, c, rest, rfl, word, space, mem⟩
    obtain ⟨t, v, rfl, first⟩ := List.eq_append_cons_of_mem mem
    refine ⟨x ++ ([c] ++ (t ++ ['\n'])), ⟨x, _, rfl, word, [c], _, rfl, ?_, t, ['\n'], rfl, ?_,
      '\n', rfl, rfl⟩, a, v, by simp⟩
    · rw [language_plus]
      simp [space]
    · intro d mem
      simp only [notNewline, bne_iff_ne, ne_eq]
      intro isBreak
      exact first (isBreak ▸ mem)

/-- A section with a line has a line break. -/
theorem mem_sectionOfLines : '\n' ∈ sectionOfLines lines ↔ lines ≠ [] := by
  cases lines with
  | nil => simp [sectionOfLines, joinLines]
  | cons line lines => simp [sectionOfLines, joinLines_cons]

/-- Where a marker with white space stands in the lines of a section. -/
theorem occurs_spaced_lines (plain : ∀ line ∈ lines, '\n' ∉ line.1 ++ line.2)
    (foreign : ∀ x, Regex.Language r x →
      '\n' ∉ x ∧ ∃ c w, x = c :: w ∧ ∀ line ∈ lines, c ∉ line.1) :
    Occurs (spaced i j r) (sectionOfLines lines) ↔
      SpacedIn (Regex.Language r) (lines.map Prod.snd) := by
  rw [occurs_spaced]
  constructor
  · rintro ⟨a, x, c, rest, split, word, space, mem⟩
    obtain ⟨noBreak, d, w, rfl, outside⟩ := foreign x word
    by_cases isBreak : c = '\n'
    · rw [isBreak, ← List.append_assoc] at split
      obtain ⟨before, line, after, rfl, ends, back, -⟩ := word_in_line plain outside noBreak split
      rw [back, mem_sectionOfLines] at mem
      right
      exact ⟨before.map Prod.snd, line.2, after.map Prod.snd, by simp, by simpa using mem, _, word,
        ends⟩
    · obtain ⟨t, v, rfl, first⟩ := List.eq_append_cons_of_mem mem
      have longer : '\n' ∉ d :: (w ++ c :: t) := by
        simp only [List.mem_cons, List.mem_append, not_or] at noBreak ⊢
        exact ⟨noBreak.1, noBreak.2, Ne.symm isBreak, first⟩
      have split' : sectionOfLines lines = a ++ (d :: (w ++ c :: t)) ++ '\n' :: v := by
        rw [split]
        simp
      obtain ⟨before, line, after, rfl, ends, -⟩ := word_in_line plain outside longer split'
      left
      refine ⟨line.2, by simp, _, c, word, space, ?_⟩
      exact List.IsInfix.trans ⟨[], t, by simp⟩ ends.isInfix
  · rintro (⟨text, mem, u, c, word, space, p, q, inside⟩ |
      ⟨before, text, after, parts, others, u, word, p, ends⟩)
    · obtain ⟨line, here, rfl⟩ := List.mem_map.mp mem
      obtain ⟨before, after, rfl⟩ := List.append_of_mem here
      refine ⟨sectionOfLines before ++ (line.1 ++ p), u, c, q ++ '\n' :: sectionOfLines after, ?_,
        word, space, by simp⟩
      rw [sectionOfLines_split, ← inside]
      simp
    · obtain ⟨before, rest, rfl, rfl, more⟩ := List.map_eq_append_iff.mp parts
      obtain ⟨line, after, rfl, rfl, rfl⟩ := List.map_eq_cons_iff.mp more
      refine ⟨sectionOfLines before ++ (line.1 ++ p), u, '\n', sectionOfLines after, ?_, word,
        by decide, mem_sectionOfLines.mpr (by simpa using others)⟩
      rw [sectionOfLines_split, ← ends]
      simp

/-- The words of the pattern of an image. -/
theorem language_image {u : Text} : Regex.Language imagePattern u ↔ ∃ alt src : Text,
    '\n' ∉ alt ∧ '\n' ∉ src ∧
      u = "![".toList ++ (alt ++ ("](".toList ++ (src ++ ")".toList))) ++ ['\n'] := by
  have line : ∀ x : Text, Regex.Language (.lazy notNewline) x ↔ '\n' ∉ x := by
    intro x
    rw [Regex.Language]
    constructor
    · intro all mem
      exact absurd (all _ mem) (by decide)
    · intro plain c mem
      rw [notNewline, bne_iff_ne]
      intro isBreak
      exact plain (isBreak ▸ mem)
  constructor
  · intro word
    obtain ⟨v, rfl, alt, v, rfl, word1, word⟩ := language_literal.mp word
    obtain ⟨v, rfl, src, v, rfl, word2, word⟩ := language_literal.mp word
    obtain ⟨v, rfl, c, isBreak, rfl⟩ := language_literal.mp word
    obtain rfl := eq_of_beq isBreak
    exact ⟨alt, src, (line alt).mp word1, (line src).mp word2, by simp⟩
  · rintro ⟨alt, src, plain1, plain2, rfl⟩
    refine language_literal.mpr ⟨alt ++ ("](".toList ++ (src ++ (")".toList ++ ['\n']))), by simp,
      alt, _, rfl, (line alt).mpr plain1, ?_⟩
    refine language_literal.mpr ⟨_, rfl, src, _, rfl, (line src).mpr plain2, ?_⟩
    exact language_literal.mpr ⟨_, rfl, '\n', rfl, rfl⟩

/-- Where an image stands in the lines of a section. -/
theorem occurs_image_lines (plain : ∀ line ∈ lines, '\n' ∉ line.1 ++ line.2)
    (foreign : ∀ line ∈ lines, '!' ∉ line.1) :
    Occurs imagePattern (sectionOfLines lines) ↔ ImageIn (lines.map Prod.snd) := by
  constructor
  · rintro ⟨u, word, a, v, split⟩
    obtain ⟨alt, src, plain1, plain2, rfl⟩ := language_image.mp word
    have noBreak : '\n' ∉ '!' :: ('[' :: (alt ++ ("](".toList ++ (src ++ ")".toList)))) := by
      simp [plain1, plain2]
    have split' : sectionOfLines lines =
        a ++ ('!' :: ('[' :: (alt ++ ("](".toList ++ (src ++ ")".toList))))) ++ '\n' :: v := by
      rw [← split]
      simp
    obtain ⟨before, line, after, rfl, ends, -⟩ := word_in_line plain foreign noBreak split'
    exact ⟨line.2, by simp, alt, src, ends⟩
  · rintro ⟨text, mem, alt, src, p, ends⟩
    obtain ⟨line, here, rfl⟩ := List.mem_map.mp mem
    have noBreak := plain line here
    obtain ⟨before, after, rfl⟩ := List.append_of_mem here
    refine ⟨_, language_image.mpr ⟨alt, src, ?_, ?_, rfl⟩, sectionOfLines before ++ (line.1 ++ p),
      sectionOfLines after, ?_⟩
    · intro mem
      refine noBreak ?_
      rw [← ends]
      simp [mem]
    · intro mem
      refine noBreak ?_
      rw [← ends]
      simp [mem]
    · rw [sectionOfLines_split, ← ends]
      simp

/-- Where a block of code stands. -/
theorem occurs_code : Occurs codePattern s ↔ ∃ a b c v,
    s = a ++ ("```".toList ++ (b ++ '\n' :: (c ++ "```".toList))) ++ '\n' :: v := by
  constructor
  · rintro ⟨u, word, a, v, rfl⟩
    obtain ⟨y, rfl, x, y, rfl, -, b, y, rfl, -, word⟩ := language_literal.mp word
    obtain ⟨y, rfl, c, y, rfl, -, word⟩ := language_literal.mp word
    obtain ⟨y, rfl, d, isBreak, rfl⟩ := language_literal.mp word
    obtain rfl := eq_of_beq isBreak
    exact ⟨a, x ++ b, c, v, by simp⟩
  · rintro ⟨a, b, c, v, rfl⟩
    refine ⟨"```".toList ++ (b ++ ("\n".toList ++ (c ++ ("```".toList ++ ['\n'])))), ?_, a, v,
      by simp⟩
    refine language_literal.mpr ⟨_, rfl, [], _, rfl, by simp [Regex.Language], b, _, rfl,
      by simp [Regex.Language], ?_⟩
    refine language_literal.mpr ⟨_, rfl, c, _, rfl, by simp [Regex.Language], ?_⟩
    exact language_literal.mpr ⟨_, rfl, '\n', rfl, rfl⟩

/-- A line break before the last line of a section is in the lines before it. -/
theorem break_before {S y c x : Text} (split : x ++ '\n' :: c = S ++ y) (plain : '\n' ∉ y) :
    ∃ v, S = x ++ '\n' :: v := by
  rcases List.append_eq_append_iff.mp split with ⟨z, left, right⟩ | ⟨z, left, right⟩
  · cases z with
    | nil =>
      rw [List.nil_append] at right
      rw [← right] at plain
      exact absurd List.mem_cons_self plain
    | cons d z =>
      simp only [List.cons_append, List.cons.injEq] at right
      exact ⟨z, by rw [left, ← right.1]⟩
  · rw [right] at plain
    exact absurd (List.mem_append_right z List.mem_cons_self) plain

/-- Where a block of code stands in the lines of a section. -/
theorem occurs_code_lines (plain : ∀ line ∈ lines, '\n' ∉ line.1 ++ line.2)
    (foreign : ∀ line ∈ lines, ∀ c ∈ "```".toList, c ∉ line.1) :
    Occurs codePattern (sectionOfLines lines) ↔ CodeIn (lines.map Prod.snd) := by
  rw [occurs_code]
  constructor
  · rintro ⟨a, b, c, v, split⟩
    have split' : sectionOfLines lines =
        (a ++ "```".toList ++ b ++ '\n' :: c) ++ "```".toList ++ '\n' :: v := by
      rw [split]
      simp
    have outside : ∀ line ∈ lines, ("```".toList.head (by decide)) ∉ line.1 :=
      fun line mem => foreign line mem _ (by decide)
    obtain ⟨before, line, after, rfl, ends, -, front⟩ :=
      word_in_line plain outside (by decide) split'
    obtain ⟨p, ends⟩ := ends
    have here := plain line (List.mem_append_right _ List.mem_cons_self)
    rw [← ends, ← List.append_assoc line.1, ← List.append_assoc] at front
    have cut := List.append_cancel_right front
    have plainP : '\n' ∉ line.1 ++ p := by
      rw [← ends, ← List.append_assoc] at here
      exact fun mem => here (List.mem_append_left _ mem)
    -- The fence that opens the block is before a line break in the lines before.
    obtain ⟨v', opened⟩ := break_before cut plainP
    have mem : '\n' ∈ b ++ '\n' :: v' := by simp
    obtain ⟨t, v2, firstBreak, noBreak⟩ := List.eq_append_cons_of_mem mem
    have split2 : sectionOfLines before = a ++ ("```".toList ++ t) ++ '\n' :: v2 := by
      rw [opened, List.append_assoc (a ++ _), firstBreak]
      simp
    have plainT : '\n' ∉ "```".toList ++ t := by
      rw [List.mem_append, not_or]
      exact ⟨by decide, noBreak⟩
    obtain ⟨others, first, between, rfl, suffix, -⟩ :=
      word_in_line (fun line mem => plain line (List.mem_append_left _ mem))
        (fun line mem => outside line (List.mem_append_left _ mem)) plainT split2
    refine ⟨(others ++ first :: between).map Prod.snd, line.2, after.map Prod.snd, by simp,
      ⟨p, ends⟩, first.2, by simp, ?_⟩
    exact List.IsInfix.trans ⟨[], t, rfl⟩ suffix.isInfix
  · rintro ⟨texts, text, rest, parts, ⟨p, ends⟩, opened, mem, x, y, inside⟩
    obtain ⟨before, others, rfl, rfl, more⟩ := List.map_eq_append_iff.mp parts
    obtain ⟨line, after, rfl, rfl, rfl⟩ := List.map_eq_cons_iff.mp more
    obtain ⟨first, here, rfl⟩ := List.mem_map.mp mem
    obtain ⟨before, between, rfl⟩ := List.append_of_mem here
    refine ⟨sectionOfLines before ++ (first.1 ++ x), y, sectionOfLines between ++ (line.1 ++ p),
      sectionOfLines after, ?_⟩
    rw [List.append_assoc, List.cons_append, sectionOfLines_split, sectionOfLines_split, ← ends,
      ← inside]
    simp

end Occurrences

end CodeLearning.Markdown
