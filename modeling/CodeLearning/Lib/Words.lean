import Mathlib.Data.List.TakeWhile

/-!
# Words of a text

`words white text` are the longest runs of the text without white space, in order, and
`strtok` is one call of the C function: skip white space, cut off one word and the white
space after it. Calling `strtok` until it returns nothing yields the words.
-/

namespace CodeLearning

namespace Words

variable {α : Type} {white : α → Bool} {text text' word : List α}

/-- Words of a text, the first of which continues `word`. -/
def wordsFrom (white : α → Bool) : List α → List α → List (List α)
  | word, [] => if word.isEmpty then [] else [word]
  | word, c :: text =>
    if white c then
      if word.isEmpty then wordsFrom white [] text else word :: wordsFrom white [] text
    else wordsFrom white (word ++ [c]) text

/-- Words of a text. -/
def words (white : α → Bool) (text : List α) : List (List α) := wordsFrom white [] text

/-- `strtok`: the next word and what follows it, `none` when only white space is left. -/
def strtok (white : α → Bool) (text : List α) : Option (List α × List α) :=
  match text.dropWhile white with
  | [] => none
  | c :: rest =>
    some ((c :: rest).takeWhile fun d => !white d,
      ((c :: rest).dropWhile fun d => !white d).drop 1)

/-- White space separates words. -/
theorem wordsFrom_append {c : α} (isWhite : white c = true) (word : List α) :
    wordsFrom white word (text ++ c :: text') = wordsFrom white word text ++ words white text' := by
  induction text generalizing word with
  | nil =>
    simp only [List.nil_append, wordsFrom, isWhite, if_true, words]
    split
    · rfl
    · rfl
  | cons d text rest =>
    simp only [List.cons_append, wordsFrom]
    split
    · split
      · exact rest []
      · rw [rest [], List.cons_append]
    · exact rest (word ++ [d])

/-- White space separates words. -/
theorem words_append {c : α} (isWhite : white c = true) :
    words white (text ++ c :: text') = words white text ++ words white text' :=
  wordsFrom_append isWhite []

/-- Text without white space continues the open word. -/
theorem wordsFrom_plain (plain : ∀ c ∈ text, white c = false) :
    wordsFrom white word text = wordsFrom white (word ++ text) [] := by
  induction text generalizing word with
  | nil => rw [List.append_nil]
  | cons c text rest =>
    have here : white c = false := plain c List.mem_cons_self
    have step : wordsFrom white word (c :: text) = wordsFrom white (word ++ [c]) text := by
      simp [wordsFrom, here]
    rw [step, rest fun d mem => plain d (List.mem_cons_of_mem _ mem), List.append_assoc,
      List.singleton_append]

/-- Text without white space is one word. -/
theorem words_plain (plain : ∀ c ∈ text, white c = false) (nonempty : text ≠ []) :
    words white text = [text] := by
  rw [words, wordsFrom_plain plain, List.nil_append, wordsFrom, if_neg]
  simpa using nonempty

/-- What follows the white space at the front is not white. -/
theorem not_white_of_dropWhile {c : α} {rest : List α} (front : text.dropWhile white = c :: rest) :
    white c = false := by
  have stops := List.head?_dropWhile_not white text
  rw [front] at stops
  simpa using stops

/-- White space at the front does not count. -/
theorem words_dropWhile : words white (text.dropWhile white) = words white text := by
  induction text with
  | nil => rfl
  | cons c text rest =>
    cases isWhite : white c with
    | true =>
      rw [List.dropWhile_cons_of_pos isWhite, rest]
      simp [words, wordsFrom, isWhite]
    | false => rw [List.dropWhile_cons_of_neg (by simp [isWhite])]

/-- White space has no words. -/
theorem words_white (all : ∀ c ∈ text, white c = true) : words white text = [] := by
  rw [← words_dropWhile, List.dropWhile_eq_nil_iff.mpr all]
  rfl

/-- A text that does not start with white space starts with its first word. -/
theorem words_takeWhile {c : α} {rest : List α} (isPlain : white c = false) :
    words white (c :: rest) = (c :: rest).takeWhile (fun d => !white d) ::
      words white (((c :: rest).dropWhile fun d => !white d).drop 1) := by
  have split := List.takeWhile_append_dropWhile (p := fun d => !white d) (l := c :: rest)
  have plain : ∀ d ∈ (c :: rest).takeWhile (fun d => !white d), white d = false := by
    intro d mem
    simpa using List.mem_takeWhile_imp mem
  have nonempty : (c :: rest).takeWhile (fun d => !white d) ≠ [] := by
    rw [List.takeWhile_cons_of_pos (by simp [isPlain])]
    simp
  cases tail : (c :: rest).dropWhile fun d => !white d with
  | nil =>
    rw [tail, List.append_nil] at split
    have single := words_plain plain nonempty
    rw [split] at single ⊢
    exact single
  | cons e after_ =>
    have isWhite : white e = true := by simpa using not_white_of_dropWhile tail
    rw [tail] at split
    have parts : words white ((c :: rest).takeWhile (fun d => !white d) ++ e :: after_) =
        words white ((c :: rest).takeWhile fun d => !white d) ++ words white after_ :=
      words_append isWhite
    rw [split, words_plain plain nonempty] at parts
    exact parts

/-- `strtok` finds nothing exactly when there is no word. -/
theorem strtok_none (none_ : strtok white text = none) : words white text = [] := by
  unfold strtok at none_
  rw [← words_dropWhile]
  cases front : text.dropWhile white with
  | nil => rfl
  | cons c rest =>
    rw [front] at none_
    cases none_

/-- `strtok` cuts off the first word. -/
theorem strtok_some {rest : List α} (found : strtok white text = some (word, rest)) :
    words white text = word :: words white rest := by
  unfold strtok at found
  rw [← words_dropWhile]
  cases front : text.dropWhile white with
  | nil =>
    rw [front] at found
    cases found
  | cons c after_ =>
    rw [front] at found
    have isPlain : white c = false := not_white_of_dropWhile front
    obtain ⟨rfl, rfl⟩ := Prod.mk.inj (Option.some.inj found)
    exact words_takeWhile isPlain

/-- A text has no words exactly when it is white space. -/
theorem words_eq_nil_iff : words white text = [] ↔ ∀ c ∈ text, white c = true := by
  constructor
  · intro none_
    rw [← List.dropWhile_eq_nil_iff]
    rw [← words_dropWhile] at none_
    cases front : text.dropWhile white with
    | nil => rfl
    | cons c rest =>
      have isPlain : white c = false := not_white_of_dropWhile front
      rw [front, words_takeWhile isPlain] at none_
      cases none_
  · exact words_white

/-- White space around a word does not count. -/
theorem words_around {before after_ : List α} (whiteBefore : ∀ c ∈ before, white c = true)
    (whiteAfter : ∀ c ∈ after_, white c = true) (nonempty : word ≠ [])
    (plain : ∀ c ∈ word, white c = false) : words white (before ++ word ++ after_) = [word] := by
  rw [List.append_assoc, ← words_dropWhile, List.dropWhile_append_of_pos whiteBefore,
    words_dropWhile]
  cases after_ with
  | nil => rw [List.append_nil, words_plain plain nonempty]
  | cons c after_ =>
    rw [words_append (whiteAfter c List.mem_cons_self), words_plain plain nonempty,
      words_white fun d mem => whiteAfter d (List.mem_cons_of_mem _ mem)]
    rfl

/-- A text with one word is the word with white space around it. -/
theorem words_eq_singleton (single : words white text = [word]) :
    ∃ before after_, text = before ++ word ++ after_ ∧ (∀ c ∈ before, white c = true) ∧
      (∀ c ∈ after_, white c = true) ∧ word ≠ [] ∧ ∀ c ∈ word, white c = false := by
  have split := List.takeWhile_append_dropWhile (p := white) (l := text)
  cases front : text.dropWhile white with
  | nil =>
    rw [← words_dropWhile, front] at single
    cases single
  | cons c rest =>
    have isPlain : white c = false := not_white_of_dropWhile front
    rw [← words_dropWhile, front, words_takeWhile isPlain] at single
    obtain ⟨isWord, others⟩ := List.cons.inj single
    have splitWord := List.takeWhile_append_dropWhile (p := fun d => !white d) (l := c :: rest)
    rw [isWord] at splitWord
    refine ⟨text.takeWhile white, (c :: rest).dropWhile fun d => !white d, ?_, ?_, ?_, ?_, ?_⟩
    · rw [List.append_assoc, splitWord, ← front, split]
    · exact fun d mem => List.mem_takeWhile_imp mem
    · rw [words_eq_nil_iff] at others
      cases tail : (c :: rest).dropWhile fun d => !white d with
      | nil => simp
      | cons e after_ =>
        rw [tail] at others
        intro d mem
        rcases List.mem_cons.mp mem with rfl | later
        · simpa using not_white_of_dropWhile tail
        · exact others d later
    · rw [← isWord, List.takeWhile_cons_of_pos (by simp [isPlain])]
      simp
    · intro d mem
      rw [← isWord] at mem
      simpa using List.mem_takeWhile_imp mem

end Words

end CodeLearning
