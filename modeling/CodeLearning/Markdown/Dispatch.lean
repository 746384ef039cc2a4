import CodeLearning.Markdown.Lines
import Mathlib.Data.List.TakeWhile

/-!
# Which rule gives the block of a section

A heading gets its element from `TitleRule`, and a list from `UnorderedList`, unless a later rule
applies too: its block then replaces the right one. `UnorderedList` takes a heading for a list when
a marker and white space stand in its text, and the rules after it take numbers, images and fences
in the texts for their own constructs.
-/

namespace CodeLearning.Markdown

open Regex

/-! ## The last rule that applies -/

section Last

variable {rule : Rule} {rules : List Rule} {s sec b : Text}

/-- A rule that applies to a section gives a block. -/
def Rule.Total (rule : Rule) : Prop := ∀ s, rule.condition s = true → (rule.replace s).isSome

/-- With total rules every section gets a block. -/
theorem applyRules_isSome (total : ∀ rule ∈ rules, rule.Total) (s sec : Text) :
    (applyRules rules s sec).isSome := by
  induction rules generalizing sec with
  | nil => rfl
  | cons rule rules before =>
    have later := before fun other mem => total other (List.mem_cons_of_mem _ mem)
    rw [applyRules]
    split
    · rename_i applies
      obtain ⟨here, replaced⟩ :=
        Option.isSome_iff_exists.mp (total rule List.mem_cons_self s applies)
      rw [replaced]
      exact later here
    · exact later sec

/-- The last rule replaces the block of those before it. -/
theorem applyRules_concat (total : ∀ other ∈ rules, other.Total) (s sec : Text) :
    applyRules (rules ++ [rule]) s sec =
      if rule.condition s then rule.replace s else applyRules rules s sec := by
  induction rules generalizing sec with
  | nil =>
    simp only [List.nil_append, applyRules]
    split
    · cases rule.replace s with
      | none => rfl
      | some here => rfl
    · rfl
  | cons first rules before =>
    have later := before fun other mem => total other (List.mem_cons_of_mem _ mem)
    have isSome := applyRules_isSome total s sec
    rw [List.cons_append, applyRules]
    rw [applyRules] at isSome ⊢
    by_cases applies : first.condition s = true
    · rw [if_pos applies] at isSome ⊢
      rw [if_pos applies]
      cases replaced : first.replace s with
      | none =>
        rw [replaced] at isSome
        cases isSome
      | some here => exact later here
    · rw [if_neg applies, if_neg applies]
      exact later sec

/-- A condition that looks for a match. -/
theorem condition_iff {r : Regex Char} : (!(findall r s).isEmpty) = true ↔ Occurs r s := by
  rw [← findall_ne_nil_iff]
  simp

/-- The first match of a pattern that occurs. -/
theorem head_isSome {r : Regex Char} {f : List (Nat × Text) → Text} (occurs : Occurs r s) :
    ((findall r s).head?.map f).isSome := by
  have nonempty := findall_ne_nil_iff.mpr occurs
  cases found : findall r s with
  | nil => exact absurd found nonempty
  | cons first others => rfl

/-- `TitleRule` finds a match when it applies. -/
theorem titleRule_total : titleRule.Total :=
  fun _ applies => head_isSome (search_isSome_iff.mp applies)

/-- `UnorderedList` gives a block when it applies. -/
theorem unorderedList_total : unorderedList.Total := fun _ _ => rfl

/-- `OrderedList` gives a block when it applies. -/
theorem orderedList_total : orderedList.Total := fun _ _ => rfl

/-- `Image` finds a match when it applies. -/
theorem image_total : image.Total := fun _ applies => head_isSome (condition_iff.mp applies)

/-- The block of a section is that of the last rule that applies. -/
theorem block_eq (s : Text) :
    block s =
      if code.condition s then code.replace s
      else if image.condition s then image.replace s
      else if orderedList.condition s then orderedList.replace s
      else if unorderedList.condition s then unorderedList.replace s
      else if titleRule.condition s then titleRule.replace s
      else some [] := by
  have rules : basicTextParser =
      [] ++ [titleRule] ++ [unorderedList] ++ [orderedList] ++ [image] ++ [code] := rfl
  rw [block, rules, applyRules_concat, applyRules_concat, applyRules_concat, applyRules_concat,
    applyRules_concat]
  · rfl
  all_goals
    simp [titleRule_total, unorderedList_total, orderedList_total, image_total]

/-- The blocks of the rules after `TitleRule` have other tags. -/
theorem replace_tag :
    (∀ b, code.replace s = some b → b[1]? = some 'p') ∧
    (∀ b, image.replace s = some b → b[1]? = some 'i') ∧
    (∀ b, orderedList.replace s = some b → b[1]? = some 'o') ∧
    (∀ b, unorderedList.replace s = some b → b[1]? = some 'u') := by
  refine ⟨?_, ?_, ?_, ?_⟩
  · intro b replaced
    obtain ⟨found, -, rfl⟩ := Option.map_eq_some_iff.mp replaced
    simp
  · intro b replaced
    obtain ⟨found, -, rfl⟩ := Option.map_eq_some_iff.mp replaced
    simp
  · intro b replaced
    obtain rfl := Option.some.inj replaced
    simp
  · intro b replaced
    obtain rfl := Option.some.inj replaced
    simp

end Last

/-! ## Headings and lists -/

/-- The section of one heading. -/
def headingSection (level : Nat) (text : Text) : Text :=
  sectionOfLines [(List.replicate level '#' ++ [' '], text)]

/-- The element of a heading. -/
def headingElement (level : Nat) (text : Text) : Text :=
  heading ['h', Char.ofNat (48 + level)] text

/-- The markers of a list. -/
inductive Marker where
  /-- `-`. -/
  | dash
  /-- `+`. -/
  | plus
  /-- `*`. -/
  | star
deriving DecidableEq

/-- The character of a marker. -/
def Marker.char : Marker → Char
  | .dash => '-'
  | .plus => '+'
  | .star => '*'

/-- The section of a list. -/
def listSection (items : List (Marker × Text)) : Text :=
  sectionOfLines (items.map fun item => ([item.1.char, ' '], item.2))

/-- The element of a list. -/
def listElement (items : List (Marker × Text)) : Text :=
  "<ul>\n".toList ++ items.flatMap (fun item => listItem item.2) ++ "</ul>\n".toList

/-- A text of one line that does not start with white space and is not empty. -/
structure ItemText (text : Text) : Prop where
  /-- It has no line break. -/
  line : '\n' ∉ text
  /-- It is not empty. -/
  nonempty : text ≠ []
  /-- It does not start with white space. -/
  starts : ∀ c, text.head? = some c → isSpace c = false

/-- A marker of a list and white space stand in the text. -/
def HasMarker (text : Text) : Prop :=
  ∃ (m : Marker) (c : Char), isSpace c = true ∧ [m.char, c] <:+: text

/-- A digit, a dot and white space stand in the text. -/
def HasNumber (text : Text) : Prop :=
  ∃ d c : Char, d.isDigit = true ∧ isSpace c = true ∧ [d, '.', c] <:+: text

/-- The text ends with a digit and a dot. -/
def EndsNumber (text : Text) : Prop := ∃ d : Char, d.isDigit = true ∧ [d, '.'] <:+ text

/-- A text of a heading that no later rule takes for something else. -/
structure HeadingKept (text : Text) : Prop where
  /-- It does not start with white space. -/
  starts : ∀ c, text.head? = some c → isSpace c = false
  /-- It is not taken for a list. -/
  marker : ¬ HasMarker text
  /-- It is not taken for a numbered list. -/
  number : ¬ HasNumber text
  /-- It is not taken for an image. -/
  image : ¬ EndsImage text

/-- Texts of a list that no later rule takes for something else. -/
structure ListKept (texts : List Text) : Prop where
  /-- No text has a number of a list in it. -/
  number : ∀ text ∈ texts, ¬ HasNumber text
  /-- No text before the last one ends with a number, which the line break would follow. -/
  numberEnd : ∀ before text after, texts = before ++ text :: after → after ≠ [] → ¬ EndsNumber text
  /-- No text ends with an image. -/
  image : ∀ text ∈ texts, ¬ EndsImage text
  /-- No text ends with a fence after a text with a fence. -/
  code : ∀ before text after, texts = before ++ text :: after → "```".toList <:+ text →
    ∀ opened ∈ before, ¬ "```".toList <:+: opened

/-- Lines whose markers have only the characters of headings and lists. -/
structure Marked (lines : List Line) : Prop where
  /-- There is no line break in a line. -/
  plain : ∀ line ∈ lines, '\n' ∉ line.1 ++ line.2
  /-- The markers. -/
  leads : ∀ line ∈ lines, ∀ c ∈ line.1, c ∈ ['#', ' ', '-', '+', '*']

section Results

variable {level : Nat} {text : Text} {lines : List Line} {items : List (Marker × Text)}
  {texts : List Text}

/-- The words of the marker of a numbered list. -/
theorem language_number {x : Text} :
    Regex.Language (.seq (.set Char.isDigit) (.set (· == '.'))) x ↔
      ∃ d : Char, d.isDigit = true ∧ x = [d, '.'] := by
  constructor
  · rintro ⟨y, z, rfl, ⟨d, digit, rfl⟩, c, isDot, rfl⟩
    obtain rfl := eq_of_beq isDot
    exact ⟨d, digit, rfl⟩
  · rintro ⟨d, digit, rfl⟩
    exact ⟨[d], ['.'], rfl, ⟨d, digit, rfl⟩, '.', rfl, rfl⟩

/-- Where the number of a list stands in the texts. -/
theorem spacedIn_number :
    SpacedIn (Regex.Language (.seq (.set Char.isDigit) (.set (· == '.')))) texts ↔
      (∃ text ∈ texts, HasNumber text) ∨
        ∃ before text after, texts = before ++ text :: after ∧ after ≠ [] ∧ EndsNumber text := by
  unfold SpacedIn HasNumber EndsNumber
  simp only [language_number]
  constructor
  · rintro (⟨text, mem, u, c, ⟨d, digit, rfl⟩, space, inside⟩ |
      ⟨before, text, after, parts, more, u, ⟨d, digit, rfl⟩, ends⟩)
    · exact Or.inl ⟨text, mem, d, c, digit, space, inside⟩
    · exact Or.inr ⟨before, text, after, parts, more, d, digit, ends⟩
  · rintro (⟨text, mem, d, c, digit, space, inside⟩ |
      ⟨before, text, after, parts, more, d, digit, ends⟩)
    · exact Or.inl ⟨text, mem, _, c, ⟨d, digit, rfl⟩, space, inside⟩
    · exact Or.inr ⟨before, text, after, parts, more, _, ⟨d, digit, rfl⟩, ends⟩

/-- A digit is no other character. -/
theorem digit_ne {d c : Char} (digit : d.isDigit = true) (other : c.isDigit = false) : d ≠ c := by
  rintro rfl
  rw [digit] at other
  cases other

/-- When `OrderedList` applies. -/
theorem orderedList_lines (marked : Marked lines) :
    orderedList.condition (sectionOfLines lines) = true ↔
      (∃ text ∈ lines.map Prod.snd, HasNumber text) ∨
        ∃ before text after, lines.map Prod.snd = before ++ text :: after ∧ after ≠ [] ∧
          EndsNumber text := by
  rw [orderedList, condition_iff, orderedPattern, occurs_spaced_lines marked.plain,
    spacedIn_number]
  intro x word
  obtain ⟨d, digit, rfl⟩ := language_number.mp word
  refine ⟨?_, d, ['.'], rfl, ?_⟩
  · simp [(digit_ne digit (by decide : '\n'.isDigit = false)).symm]
  · intro line here mem
    have lead := marked.leads line here d mem
    simp only [List.mem_cons, List.not_mem_nil, or_false] at lead
    rcases lead with rfl | rfl | rfl | rfl | rfl <;> exact absurd digit (by decide)

/-- When `Image` applies. -/
theorem image_lines (marked : Marked lines) :
    image.condition (sectionOfLines lines) = true ↔ ImageIn (lines.map Prod.snd) := by
  rw [image, condition_iff, occurs_image_lines marked.plain]
  intro line here mem
  exact absurd (marked.leads line here _ mem) (by decide)

/-- When `Code` applies. -/
theorem code_lines (marked : Marked lines) :
    code.condition (sectionOfLines lines) = true ↔ CodeIn (lines.map Prod.snd) := by
  rw [code, condition_iff, occurs_code_lines marked.plain]
  intro line here c tick mem
  have lead := marked.leads line here c mem
  simp only [String.reduceToList, List.mem_cons, List.not_mem_nil, or_false, or_self] at tick
  subst tick
  exact absurd lead (by decide)

/-- The line of a heading. -/
theorem marked_heading (line : '\n' ∉ text) :
    Marked [(List.replicate level '#' ++ [' '], text)] := by
  refine ⟨?_, ?_⟩
  · intro other mem
    obtain rfl := List.mem_singleton.mp mem
    simp [line, List.mem_replicate]
  · intro other mem c lead
    obtain rfl := List.mem_singleton.mp mem
    rcases List.mem_append.mp lead with mark | blank
    · rw [List.eq_of_mem_replicate mark]
      decide
    · rw [List.mem_singleton.mp blank]
      decide

/-- One text is not before another one. -/
theorem not_before {before after : List Text} {other : Text}
    (parts : [text] = before ++ other :: after) : before = [] ∧ after = [] := by
  have length := congrArg List.length parts
  simp only [List.length_cons, List.length_nil, List.length_append] at length
  exact ⟨List.eq_nil_of_length_eq_zero (by omega), List.eq_nil_of_length_eq_zero (by omega)⟩

/-- When `OrderedList` applies to a heading. -/
theorem orderedList_heading (line : '\n' ∉ text) :
    orderedList.condition (headingSection level text) = true ↔ HasNumber text := by
  rw [headingSection, orderedList_lines (marked_heading line)]
  simp only [List.map_cons, List.map_nil, List.mem_singleton, exists_eq_left, or_iff_left_iff_imp]
  rintro ⟨before, other, after, parts, more, -⟩
  exact absurd (not_before parts).2 more

/-- When `Image` applies to a heading. -/
theorem image_heading (line : '\n' ∉ text) :
    image.condition (headingSection level text) = true ↔ EndsImage text := by
  rw [headingSection, image_lines (marked_heading line)]
  simp [ImageIn]

/-- `Code` does not apply to a heading. -/
theorem code_heading (line : '\n' ∉ text) :
    ¬ code.condition (headingSection level text) = true := by
  rw [headingSection, code_lines (marked_heading line)]
  rintro ⟨before, other, after, parts, -, opened, mem, -⟩
  rw [(not_before parts).1] at mem
  cases mem

/-- When a branch of `UnorderedList` applies to a heading. -/
theorem spaced_heading {i j : Nat} {m : Char} (line : '\n' ∉ text) (noBreak : m ≠ '\n')
    (other : m ≠ '#' ∧ m ≠ ' ') :
    Occurs (spaced i j (.set (· == m))) (headingSection level text) ↔
      ∃ c, isSpace c = true ∧ [m, c] <:+: text := by
  have single : ∀ x, Regex.Language (.set (· == m)) x ↔ x = [m] := by
    intro x
    constructor
    · rintro ⟨c, same, rfl⟩
      rw [eq_of_beq same]
    · rintro rfl
      exact ⟨m, beq_self_eq_true m, rfl⟩
  have foreign : ∀ x, Regex.Language (.set (· == m)) x → '\n' ∉ x ∧
      ∃ c w, x = c :: w ∧ ∀ other ∈ [(List.replicate level '#' ++ [' '], text)], c ∉ other.1 := by
    intro x word
    obtain rfl := (single x).mp word
    refine ⟨by simpa using noBreak.symm, m, [], rfl, ?_⟩
    intro line mem
    obtain rfl := List.mem_singleton.mp mem
    simp [List.mem_replicate, other]
  rw [headingSection, occurs_spaced_lines (marked_heading line).plain foreign]
  constructor
  · rintro (⟨t, mem, u, c, word, space, inside⟩ | ⟨before, t, after, parts, more, -⟩)
    · obtain rfl := List.mem_singleton.mp mem
      obtain rfl := (single u).mp word
      exact ⟨c, space, inside⟩
    · exact absurd (not_before parts).2 more
  · rintro ⟨c, space, inside⟩
    exact Or.inl ⟨text, List.mem_singleton.mpr rfl, [m], c, (single _).mpr rfl, space, inside⟩

/-- When `UnorderedList` applies to a heading. -/
theorem unorderedList_heading (line : '\n' ∉ text) :
    unorderedList.condition (headingSection level text) = true ↔ HasMarker text := by
  rw [unorderedList, condition_iff, unorderedPattern, occurs_alt, occurs_alt,
    spaced_heading line (by decide) (by decide), spaced_heading line (by decide) (by decide),
    spaced_heading line (by decide) (by decide)]
  constructor
  · rintro (⟨c, found⟩ | ⟨c, found⟩ | ⟨c, found⟩)
    · exact ⟨.dash, c, found⟩
    · exact ⟨.plus, c, found⟩
    · exact ⟨.star, c, found⟩
  · rintro ⟨m, c, found⟩
    cases m with
    | dash => exact Or.inl ⟨c, found⟩
    | plus => exact Or.inr (Or.inl ⟨c, found⟩)
    | star => exact Or.inr (Or.inr ⟨c, found⟩)

/-- What `TitleRule` finds in a heading: its marks and its text without white space in front. -/
theorem run_heading (level : Nat) (line : '\n' ∉ text) :
    ∃ m, (run titlePattern (headingSection (level + 1) text)).head? = some m ∧
      m.captures = [(1, List.replicate (level + 1) '#'), (2, text.dropWhile isSpace)] := by
  have given : headingSection (level + 1) text =
      List.replicate (level + 1) '#' ++ (' ' :: (text ++ ['\n'])) := by
    simp [headingSection, sectionOfLines, joinLines]
  have marks : (run (.group 1 (plus (· == '#'))) (headingSection (level + 1) text)).head? =
      some ⟨[(1, List.replicate (level + 1) '#')], List.replicate (level + 1) '#',
        ' ' :: (text ++ ['\n'])⟩ := by
    rw [given]
    refine head_group 1 (head_plus ?_ (by simp) ?_)
    · intro c mem
      rw [List.eq_of_mem_replicate mem]
      rfl
    · intro c head
      obtain rfl := Option.some.inj head
      rfl
  have all : ∀ c ∈ ' ' :: text.takeWhile isSpace, isSpace c = true :=
    List.forall_mem_cons.mpr ⟨rfl, fun c mem => List.mem_takeWhile_imp mem⟩
  have whole := List.takeWhile_append_dropWhile (p := isSpace) (l := text)
  cases rest : text.dropWhile isSpace with
  | nil =>
    rw [rest, List.append_nil] at whole
    rw [whole] at all
    exact ⟨_, head_seq marks (head_greedy_back 2 all rfl rfl), rfl⟩
  | cons c others =>
    have outside : isSpace c = false := by
      have stops := List.head?_dropWhile_not isSpace text
      rw [rest] at stops
      simpa using stops
    have noBreak : '\n' ∉ c :: others := by
      rw [← rest]
      exact fun mem => line ((List.dropWhile_sublist _).subset mem)
    have spaces : (run (.greedy isSpace) (' ' :: (text ++ ['\n']))).head? =
        some ⟨[], ' ' :: text.takeWhile isSpace, (c :: others) ++ '\n' :: []⟩ := by
      have split : ' ' :: (text ++ ['\n']) =
          (' ' :: text.takeWhile isSpace) ++ ((c :: others) ++ '\n' :: []) := by
        rw [rest] at whole
        conv_lhs => rw [← whole]
        simp
      rw [split]
      refine head_greedy all ?_
      intro d head
      obtain rfl := Option.some.inj head
      exact outside
    refine ⟨_, head_seq marks (head_seq spaces (head_lazy 2 ?_ ?_ rfl)), rfl⟩
    · intro d mem
      rw [notNewline, bne_iff_ne]
      exact fun isBreak => noBreak (isBreak ▸ mem)
    · intro d mem
      rw [beq_eq_false_iff_ne]
      exact fun isBreak => noBreak (isBreak ▸ mem)

/-- The block that `TitleRule` gives for a heading. -/
theorem titleRule_heading (low : 1 ≤ level) (high : level ≤ 6) (line : '\n' ∉ text) :
    titleRule.condition (headingSection level text) = true ∧
      titleRule.replace (headingSection level text) =
        some (headingElement level (text.dropWhile isSpace)) := by
  obtain ⟨k, rfl⟩ := Nat.exists_eq_add_of_le' low
  obtain ⟨m, head, captures⟩ := run_heading k line
  have found := findall_head head
  constructor
  · rw [titleRule, search_isSome_iff, ← findall_ne_nil_iff]
    intro none_
    rw [none_] at found
    cases found
  · have marks : captured [(1, List.replicate (k + 1) '#'), (2, text.dropWhile isSpace)] 1 =
        List.replicate (k + 1) '#' := rfl
    have title : captured [(1, List.replicate (k + 1) '#'), (2, text.dropWhile isSpace)] 2 =
        text.dropWhile isSpace := rfl
    have small : k = 0 ∨ k = 1 ∨ k = 2 ∨ k = 3 ∨ k = 4 ∨ k = 5 := by omega
    simp only [titleRule, found, captures, Option.map_some, marks, title, List.length_replicate]
    rcases small with rfl | rfl | rfl | rfl | rfl | rfl <;> rfl

/-- A text is unchanged without the white space in front exactly when it does not start with it. -/
theorem dropWhile_eq_self_iff_head :
    text.dropWhile isSpace = text ↔ ∀ c, text.head? = some c → isSpace c = false := by
  cases text with
  | nil => simp
  | cons c text =>
    cases space : isSpace c with
    | true =>
      simp only [List.dropWhile_cons_of_pos space, List.head?_cons, Option.some.injEq,
        forall_eq', space, reduceCtorEq, iff_false]
      intro same
      have shorter := (List.dropWhile_sublist (l := text) isSpace).length_le
      rw [same, List.length_cons] at shorter
      omega
    | false => simp [space]

/-- The elements of headings of one level differ when their texts do. -/
theorem headingElement_inj {other : Text} :
    headingElement level text = headingElement level other ↔ text = other := by
  simp [headingElement, heading]

/-- A block with the tag of another rule is not the element. -/
theorem ne_of_tag {replaced : Option Text} {element : Text} {c d : Char}
    (tag : ∀ b, replaced = some b → b[1]? = some c) (other : element[1]? = some d) (ne : c ≠ d) :
    replaced ≠ some element := by
  intro same
  have here := tag element same
  rw [other] at here
  exact ne (Option.some.inj here).symm

/-- The block of a heading is its element exactly when no later rule applies. -/
theorem block_heading_iff (low : 1 ≤ level) (high : level ≤ 6) (line : '\n' ∉ text) :
    block (headingSection level text) = some (headingElement level text) ↔ HeadingKept text := by
  obtain ⟨applies, replaced⟩ := titleRule_heading low high line
  have tag : (headingElement level text)[1]? = some 'h' := by simp [headingElement, heading]
  obtain ⟨-, imageTag, orderedTag, unorderedTag⟩ := @replace_tag (headingSection level text)
  rw [block_eq, if_neg (code_heading line)]
  by_cases isImage : EndsImage text
  · rw [if_pos ((image_heading line).mpr isImage)]
    exact iff_of_false (ne_of_tag imageTag tag (by decide)) fun kept => kept.image isImage
  rw [if_neg (mt (image_heading line).mp isImage)]
  by_cases number : HasNumber text
  · rw [if_pos ((orderedList_heading line).mpr number)]
    exact iff_of_false (ne_of_tag orderedTag tag (by decide)) fun kept => kept.number number
  rw [if_neg (mt (orderedList_heading line).mp number)]
  by_cases marker : HasMarker text
  · rw [if_pos ((unorderedList_heading line).mpr marker)]
    exact iff_of_false (ne_of_tag unorderedTag tag (by decide)) fun kept => kept.marker marker
  rw [if_neg (mt (unorderedList_heading line).mp marker), if_pos applies, replaced,
    Option.some.injEq, headingElement_inj, dropWhile_eq_self_iff_head]
  exact ⟨fun starts => ⟨starts, marker, number, isImage⟩, HeadingKept.starts⟩

/-- What a branch of `UnorderedList` finds in an item. -/
theorem run_spaced {m : Char} (i j : Nat) (item : ItemText text) (rest : Text) :
    (run (spaced i j (.set (· == m))) (m :: ' ' :: (text ++ '\n' :: rest))).head? =
      some ⟨[(i, [m]), (j, text)], m :: ' ' :: (text ++ ['\n']), rest⟩ := by
  have marker : (run (.group i (.set (· == m))) (m :: ' ' :: (text ++ '\n' :: rest))).head? =
      some ⟨[(i, [m])], [m], ' ' :: (text ++ '\n' :: rest)⟩ :=
    head_group i (head_set (beq_self_eq_true m))
  have blank : (run (plus isSpace) ([' '] ++ (text ++ '\n' :: rest))).head? =
      some ⟨[], [' '], text ++ '\n' :: rest⟩ := by
    refine head_plus (by simp [isSpace]) (by simp) ?_
    intro c head
    cases text with
    | nil => exact absurd rfl item.nonempty
    | cons d text => exact item.starts c head
  refine head_seq marker (head_seq blank (head_lazy j ?_ ?_ rfl))
  · intro d mem
    rw [notNewline, bne_iff_ne]
    exact fun isBreak => item.line (isBreak ▸ mem)
  · intro d mem
    rw [beq_eq_false_iff_ne]
    exact fun isBreak => item.line (isBreak ▸ mem)

/-- A branch of `UnorderedList` for another marker finds nothing. -/
theorem run_spaced_other {m c : Char} (i j : Nat) (other : c ≠ m) (rest : Text) :
    run (spaced i j (.set (· == m))) (c :: rest) = [] := by
  refine run_seq_nil ?_
  simp [run, other]

/-- The captures of an item. -/
def itemCaptures : Marker × Text → List (Nat × Text)
  | (.dash, text) => [(1, ['-']), (2, text)]
  | (.plus, text) => [(3, ['+']), (4, text)]
  | (.star, text) => [(5, ['*']), (6, text)]

/-- What `UnorderedList` finds in an item. -/
theorem run_item (marker : Marker) (item : ItemText text) (rest : Text) :
    (run unorderedPattern (marker.char :: ' ' :: (text ++ '\n' :: rest))).head? =
      some ⟨itemCaptures (marker, text), marker.char :: ' ' :: (text ++ ['\n']), rest⟩ := by
  cases marker with
  | dash => exact head_alt_left (run_spaced 1 2 item rest)
  | plus =>
    exact head_alt_right (run_spaced_other 1 2 (by decide) _)
      (head_alt_left (run_spaced 3 4 item rest))
  | star =>
    exact head_alt_right (run_spaced_other 1 2 (by decide) _)
      (head_alt_right (run_spaced_other 3 4 (by decide) _) (run_spaced 5 6 item rest))

/-- `UnorderedList` finds the items of a list, one for each line. -/
theorem findall_list (valid : ∀ item ∈ items, ItemText item.2) :
    findall unorderedPattern (listSection items) = items.map itemCaptures := by
  induction items with
  | nil => rfl
  | cons item items before =>
    have given : listSection (item :: items) =
        (item.1.char :: ' ' :: (item.2 ++ ['\n'])) ++ listSection items := by
      simp [listSection, sectionOfLines, joinLines]
    have head := run_item item.1 (valid item List.mem_cons_self) (listSection items)
    have regroup : item.1.char :: ' ' :: (item.2 ++ '\n' :: listSection items) =
        (item.1.char :: ' ' :: (item.2 ++ ['\n'])) ++ listSection items := by simp
    rw [regroup] at head
    rw [given, findall_append head rfl (by simp),
      before fun other mem => valid other (List.mem_cons_of_mem _ mem)]
    rfl

/-- The block that `UnorderedList` gives for a list. -/
theorem unorderedList_list (nonempty : items ≠ []) (valid : ∀ item ∈ items, ItemText item.2) :
    unorderedList.condition (listSection items) = true ∧
      unorderedList.replace (listSection items) = some (listElement items) := by
  have each : ∀ item : Marker × Text, unorderedItem (itemCaptures item) = listItem item.2 := by
    rintro ⟨marker, text⟩
    cases marker with
    | dash => rfl
    | plus => rfl
    | star => rfl
  constructor
  · simpa [unorderedList, findall_list valid] using nonempty
  · simp only [unorderedList, findall_list valid, List.flatMap_map, each, listElement]

/-- The lines of a list. -/
theorem marked_list (valid : ∀ item ∈ items, ItemText item.2) :
    Marked (items.map fun item => ([item.1.char, ' '], item.2)) := by
  refine ⟨?_, ?_⟩
  · intro line mem
    obtain ⟨⟨marker, text⟩, here, rfl⟩ := List.mem_map.mp mem
    have plain := (valid _ here).line
    cases marker <;> simpa [Marker.char] using plain
  · intro line mem c lead
    obtain ⟨⟨marker, text⟩, here, rfl⟩ := List.mem_map.mp mem
    cases marker <;> (simp [Marker.char] at lead; rcases lead with rfl | rfl <;> decide)

/-- The block of a list is its element exactly when no later rule applies. -/
theorem block_list_iff (nonempty : items ≠ []) (valid : ∀ item ∈ items, ItemText item.2) :
    block (listSection items) = some (listElement items) ↔ ListKept (items.map Prod.snd) := by
  obtain ⟨applies, replaced⟩ := unorderedList_list nonempty valid
  have marked := marked_list valid
  have texts : (items.map fun item => (([item.1.char, ' '], item.2) : Line)).map Prod.snd =
      items.map Prod.snd := by simp
  have tag : (listElement items)[1]? = some 'u' := by simp [listElement]
  obtain ⟨codeTag, imageTag, orderedTag, -⟩ := @replace_tag (listSection items)
  have isCode := code_lines marked
  have isImage := image_lines marked
  have isNumber := orderedList_lines marked
  rw [texts, ← listSection] at isCode isImage isNumber
  rw [block_eq]
  by_cases coded : CodeIn (items.map Prod.snd)
  · rw [if_pos (isCode.mpr coded)]
    refine iff_of_false (ne_of_tag codeTag tag (by decide)) fun kept => ?_
    obtain ⟨before, text, after, parts, ends, opened, mem, inside⟩ := coded
    exact kept.code before text after parts ends opened mem inside
  rw [if_neg (mt isCode.mp coded)]
  by_cases imaged : ImageIn (items.map Prod.snd)
  · rw [if_pos (isImage.mpr imaged)]
    refine iff_of_false (ne_of_tag imageTag tag (by decide)) fun kept => ?_
    obtain ⟨text, mem, ends⟩ := imaged
    exact kept.image text mem ends
  rw [if_neg (mt isImage.mp imaged)]
  by_cases numbered : orderedList.condition (listSection items) = true
  · rw [if_pos numbered]
    refine iff_of_false (ne_of_tag orderedTag tag (by decide)) fun kept => ?_
    rcases isNumber.mp numbered with ⟨text, mem, inside⟩ | ⟨before, text, after, parts, more, ends⟩
    · exact kept.number text mem inside
    · exact kept.numberEnd before text after parts more ends
  rw [if_neg numbered, if_pos applies, replaced]
  have free := mt isNumber.mpr numbered
  rw [not_or] at free
  refine iff_of_true rfl ⟨?_, ?_, ?_, ?_⟩
  · exact fun text mem inside => free.1 ⟨text, mem, inside⟩
  · exact fun before text after parts more ends => free.2 ⟨before, text, after, parts, more, ends⟩
  · exact fun text mem ends => imaged ⟨text, mem, ends⟩
  · exact fun before text after parts ends opened mem inside =>
      coded ⟨before, text, after, parts, ends, opened, mem, inside⟩

end Results

/-- The blocks that `BasicTextParser` appends: that of a heading is the element of its level around
its text exactly when the text does not start with white space and nothing in it looks like a list,
a number or an image, and that of a list has its items exactly when nothing in their texts looks
like a number, an image or code. -/
theorem block_iff (level : Nat) (text : Text) (items : List (Marker × Text)) :
    (1 ≤ level → level ≤ 6 → '\n' ∉ text →
      (block (headingSection level text) = some (headingElement level text) ↔
        HeadingKept text)) ∧
    (items ≠ [] → (∀ item ∈ items, ItemText item.2) →
      (block (listSection items) = some (listElement items) ↔
        ListKept (items.map Prod.snd))) := by
  constructor
  · intro low high line
    exact block_heading_iff low high line
  · intro nonempty valid
    exact block_list_iff nonempty valid

/-- A heading of the second level and a list of two items with different markers get their
elements. -/
theorem block_two_items :
    block (headingSection 2 "Two words".toList) = some "<h2>Two words</h2>\n".toList ∧
    block (listSection [(.dash, "1 of 2".toList), (.star, "two words".toList)]) =
      some "<ul>\n<li>1 of 2</li>\n<li>two words</li>\n</ul>\n".toList := by
  -- None of the texts has a character with which something else would start.
  have plain : ∀ text ∈ ["Two words".toList, "1 of 2".toList, "two words".toList],
      ∀ c ∈ ['-', '+', '*', '.', '[', '`'], c ∉ text := by
    simp only [List.forall_mem_cons, List.not_mem_nil, false_implies, implies_true]
    decide
  have noNumber : ∀ text ∈ ["Two words".toList, "1 of 2".toList, "two words".toList],
      ¬ HasNumber text := by
    rintro text mem ⟨d, c, -, -, inside⟩
    exact plain text mem '.' (by decide) (inside.subset (by simp))
  have noImage : ∀ text ∈ ["Two words".toList, "1 of 2".toList, "two words".toList],
      ¬ EndsImage text := by
    rintro text mem ⟨alt, src, ends⟩
    exact plain text mem '[' (by decide) (ends.subset (by simp))
  have among : ∀ {before : List Text} {text : Text} {after : List Text},
      ["1 of 2".toList, "two words".toList] = before ++ text :: after →
        text ∈ ["Two words".toList, "1 of 2".toList, "two words".toList] := by
    intro before text after parts
    rw [parts]
    exact List.mem_cons_of_mem _ (List.mem_append_right _ List.mem_cons_self)
  obtain ⟨heading, list⟩ := block_iff 2 "Two words".toList
    [(.dash, "1 of 2".toList), (.star, "two words".toList)]
  refine ⟨(heading (by decide) (by decide) (by decide)).mpr
      ⟨?_, ?_, noNumber _ (by decide), noImage _ (by decide)⟩,
    (list (by decide) ?_).mpr ⟨?_, ?_, ?_, ?_⟩⟩
  · rintro c ⟨⟩
    decide
  · rintro ⟨m, c, -, inside⟩
    refine plain "Two words".toList (by decide) m.char ?_ (inside.subset (by simp))
    cases m <;> decide
  · intro item mem
    simp only [List.mem_cons, List.not_mem_nil, or_false] at mem
    rcases mem with rfl | rfl
    · exact ⟨by decide, by decide, by rintro c ⟨⟩; decide⟩
    · exact ⟨by decide, by decide, by rintro c ⟨⟩; decide⟩
  · exact fun text mem => noNumber text (List.mem_cons_of_mem _ mem)
  · rintro before text after parts - ⟨d, -, ends⟩
    exact plain text (among parts) '.' (by decide) (ends.subset (by simp))
  · exact fun text mem => noImage text (List.mem_cons_of_mem _ mem)
  · intro before text after parts ends
    exact absurd (ends.subset (by decide)) (plain text (among parts) '`' (by decide))

/-- The heading `# a - b` becomes a list, and the list with the item `1. a` a numbered one. -/
theorem block_replaced :
    (block (headingSection 1 "a - b".toList) = some "<ul>\n<li>b</li>\n</ul>\n".toList ∧
      block (headingSection 1 "a - b".toList) ≠ some (headingElement 1 "a - b".toList)) ∧
    (∀ c, "1. a".toList.head? = some c → isSpace c = false) ∧
    block (listSection [(.dash, "1. a".toList)]) = some "<ol>\n<li>a</li>\n</ol>\n".toList ∧
      block (listSection [(.dash, "1. a".toList)]) ≠
        some (listElement [(.dash, "1. a".toList)]) := by
  refine ⟨⟨by decide +kernel, by decide +kernel⟩, ?_, by decide +kernel, by decide +kernel⟩
  intro c head
  obtain rfl := Option.some.inj head
  decide

end CodeLearning.Markdown
