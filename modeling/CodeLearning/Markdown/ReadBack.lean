import CodeLearning.Lib.PrefixReader
import CodeLearning.Markdown.Dispatch

/-!
# What a page says

Every section of a file becomes one element of the page, or nothing, and the texts of the element
stand in the section. `Parser.parse` puts them between its tags as they are. When the file has no
`<` and no quotation mark, no text is taken for markup, and the elements can be read back from what
is printed.
-/

namespace CodeLearning.Markdown

open Regex PrefixReader

/-- An element of a page. -/
inductive Element where
  /-- A heading with the digit of its level. -/
  | heading (digit : Char) (text : Text)
  /-- A list. -/
  | list (ordered : Bool) (items : List Text)
  /-- An image. -/
  | image (source altText : Text)
  /-- Code in some language. -/
  | code (language body : Text)
deriving DecidableEq

/-- The letter of the tag of a list. -/
def listLetter (ordered : Bool) : Char := if ordered then 'o' else 'u'

/-- The markup of a list. -/
def listHtml (ordered : Bool) (items : List Text) : Text :=
  ['<', listLetter ordered, 'l', '>', '\n'] ++ items.flatMap listItem ++
    ['<', '/', listLetter ordered, 'l', '>', '\n']

/-- The markup of an image. -/
def imageHtml (source altText : Text) : Text :=
  "<img src=\"".toList ++ source ++ "\"alt=\"".toList ++ altText ++ "\" />\n".toList

/-- The markup of code. -/
def codeHtml (language body : Text) : Text :=
  "<pre>\n<code class=\"".toList ++ language ++ "\">\n".toList ++ body ++
    "</code>\n</pre>\n".toList

/-- The markup of an element. -/
def Element.html : Element → Text
  | .heading digit text => Markdown.heading ['h', digit] text
  | .list ordered items => listHtml ordered items
  | .image source altText => imageHtml source altText
  | .code language body => codeHtml language body

/-- The texts of an element. -/
def Element.texts : Element → List Text
  | .heading _ text => [text]
  | .list _ items => items
  | .image source altText => [source, altText]
  | .code language body => [language, body]

/-- The markup of an element that may be missing. -/
def htmlOf (element : Option Element) : Text := (element.map Element.html).getD []

/-! ## The element of a section -/

/-- The text of an item of an unordered list. -/
def unorderedText (found : List (Nat × Text)) : Option Text :=
  if captured found 1 ≠ [] then some (captured found 2)
  else if captured found 3 ≠ [] then some (captured found 4)
  else if captured found 5 ≠ [] then some (captured found 6)
  else none

/-- A section gives an element whose texts stand in it. -/
structure Gives (s sec : Text) (element : Option Element) : Prop where
  /-- The block is the markup of the element. -/
  block : sec = htmlOf element
  /-- The texts are parts of the section. -/
  texts : ∀ e ∈ element, ∀ text ∈ e.texts, text <:+: s

section Sections

variable {s sec : Text} {found : List (Nat × Text)}

/-- A block of one element. -/
theorem gives_some {e : Element} (block : sec = e.html) (texts : ∀ text ∈ e.texts, text <:+: s) :
    Gives s sec (some e) := by
  refine ⟨block, fun e' mem => ?_⟩
  obtain rfl := Option.some.inj mem
  exact texts

/-- `TitleRule` gives a heading, or nothing when there are more than six marks. -/
theorem titleRule_gives (replaced : titleRule.replace s = some sec) :
    ∃ element, Gives s sec element := by
  obtain ⟨found, first, rfl⟩ := Option.map_eq_some_iff.mp replaced
  have text := captured_infix (List.mem_of_mem_head? first) 2
  have level : ∀ digit, Gives s (heading ['h', digit] (captured found 2))
      (some (.heading digit (captured found 2))) := by
    intro digit
    exact gives_some rfl (by simpa [Element.texts] using text)
  split
  · exact ⟨_, level '1'⟩
  · exact ⟨_, level '2'⟩
  · exact ⟨_, level '3'⟩
  · exact ⟨_, level '4'⟩
  · exact ⟨_, level '5'⟩
  · exact ⟨_, level '6'⟩
  · exact ⟨none, rfl, fun e mem => by cases mem⟩

/-- The items of an unordered list have the texts of the matches. -/
theorem flatMap_unorderedItem (matches_ : List (List (Nat × Text))) :
    matches_.flatMap unorderedItem = (matches_.filterMap unorderedText).flatMap listItem := by
  induction matches_ with
  | nil => rfl
  | cons found others rest =>
    rw [List.flatMap_cons, rest, List.filterMap_cons, unorderedItem, unorderedText]
    by_cases one : captured found 1 ≠ []
    · simp only [if_pos one, List.flatMap_cons]
    · by_cases three : captured found 3 ≠ []
      · simp only [if_neg one, if_pos three, List.flatMap_cons]
      · by_cases five : captured found 5 ≠ []
        · simp only [if_neg one, if_neg three, if_pos five, List.flatMap_cons]
        · simp only [if_neg one, if_neg three, if_neg five, List.nil_append]

/-- The texts of the items stand in the section. -/
theorem unorderedText_infix {text : Text} (mem : found ∈ findall unorderedPattern s)
    (item : unorderedText found = some text) : text <:+: s := by
  have captures := captured_infix mem
  rw [unorderedText] at item
  split at item
  · exact Option.some.inj item ▸ captures 2
  · split at item
    · exact Option.some.inj item ▸ captures 4
    · split at item
      · exact Option.some.inj item ▸ captures 6
      · cases item

/-- The markup of a list without numbers. -/
theorem listHtml_unordered (items : List Text) : listHtml false items =
    "<ul>\n".toList ++ items.flatMap listItem ++ "</ul>\n".toList := by
  simp [listHtml, listLetter]

/-- The markup of a list with numbers. -/
theorem listHtml_ordered (items : List Text) : listHtml true items =
    "<ol>\n".toList ++ items.flatMap listItem ++ "</ol>\n".toList := by
  simp [listHtml, listLetter]

/-- `UnorderedList` gives a list. -/
theorem unorderedList_gives (replaced : unorderedList.replace s = some sec) :
    ∃ element, Gives s sec element := by
  rw [unorderedList, Option.some.injEq, flatMap_unorderedItem] at replaced
  refine ⟨some (.list false ((findall unorderedPattern s).filterMap unorderedText)),
    gives_some ?_ fun text mem => ?_⟩
  · rw [← replaced, Element.html, listHtml_unordered]
  · obtain ⟨found, inside, item⟩ := List.mem_filterMap.mp mem
    exact unorderedText_infix inside item

/-- `OrderedList` gives a list. -/
theorem orderedList_gives (replaced : orderedList.replace s = some sec) :
    ∃ element, Gives s sec element := by
  rw [orderedList, Option.some.injEq] at replaced
  refine ⟨some (.list true ((findall orderedPattern s).map (captured · 2))),
    gives_some ?_ fun text mem => ?_⟩
  · rw [← replaced, Element.html, listHtml_ordered, List.flatMap_map]
  · obtain ⟨found, inside, rfl⟩ := List.mem_map.mp mem
    exact captured_infix inside 2

/-- `Image` gives an image. -/
theorem image_gives (replaced : image.replace s = some sec) : ∃ element, Gives s sec element := by
  obtain ⟨found, first, rfl⟩ := Option.map_eq_some_iff.mp replaced
  have captures := captured_infix (List.mem_of_mem_head? first)
  refine ⟨_, gives_some (e := .image (captured found 2) (captured found 1)) rfl ?_⟩
  simp [Element.texts, captures]

/-- `Code` gives code. -/
theorem code_gives (replaced : code.replace s = some sec) : ∃ element, Gives s sec element := by
  obtain ⟨found, first, rfl⟩ := Option.map_eq_some_iff.mp replaced
  have captures := captured_infix (List.mem_of_mem_head? first)
  refine ⟨_, gives_some (e := .code (captured found 1) (captured found 2)) rfl ?_⟩
  simp [Element.texts, captures]

/-- Every section gives one element or none. -/
theorem block_gives (built : block s = some sec) : ∃ element, Gives s sec element := by
  rw [block_eq] at built
  split at built
  · exact code_gives built
  split at built
  · exact image_gives built
  split at built
  · exact orderedList_gives built
  split at built
  · exact unorderedList_gives built
  split at built
  · exact titleRule_gives built
  · exact ⟨none, (Option.some.inj built).symm, fun e mem => by cases mem⟩

end Sections

/-! ## Reading elements back -/

/-- Reads an item of a list. -/
def readItem : PrefixReader Char Text :=
  (expect "<li>".toList).andThen fun _ => (before '<').andThen fun text =>
    (expect "/li>\n".toList).mapTo fun _ => text

/-- Reads a heading. -/
def readHeading : PrefixReader Char Element :=
  (expect "<h".toList).andThen fun _ => letter.andThen fun digit =>
    (expect ">".toList).andThen fun _ => (before '<').andThen fun text =>
      (expect ("/h".toList ++ [digit] ++ ">\n".toList)).mapTo fun _ => .heading digit text

/-- Reads a list. -/
def readList (ordered : Bool) : PrefixReader Char Element :=
  (expect ['<', listLetter ordered, 'l', '>', '\n']).andThen fun _ =>
    (all readItem).andThen fun items =>
      (expect ['<', '/', listLetter ordered, 'l', '>', '\n']).mapTo fun _ => .list ordered items

/-- Reads an image. -/
def readImage : PrefixReader Char Element :=
  (expect "<img src=\"".toList).andThen fun _ => (before '"').andThen fun source =>
    (expect "alt=\"".toList).andThen fun _ => (before '"').andThen fun altText =>
      (expect " />\n".toList).mapTo fun _ => .image source altText

/-- Reads code. -/
def readCode : PrefixReader Char Element :=
  (expect "<pre>\n<code class=\"".toList).andThen fun _ => (before '"').andThen fun language =>
    (expect ">\n".toList).andThen fun _ => (before '<').andThen fun body =>
      (expect "/code>\n</pre>\n".toList).mapTo fun _ => .code language body

/-- Reads an element. -/
def readElement : PrefixReader Char Element :=
  readHeading.orElse ((readList false).orElse ((readList true).orElse (readImage.orElse readCode)))

/-- Reads a block as it is printed. -/
def readBlock : PrefixReader Char (Option Element) :=
  ((expect ['\n']).mapTo fun _ => none).orElse
    (readElement.andThen fun element => (expect ['\n']).mapTo fun _ => some element)

/-- Reads the blocks behind some text, up to the end. -/
def readBehind (head s : Text) : Option (List (Option Element)) :=
  match (expect head).andThen (fun _ => all readBlock) s with
  | some (elements, []) => some elements
  | _ => none

/-- Reads a page. -/
def readPage (s : Text) : Option (List (Option Element)) := readBehind (gethead ++ ['\n']) s

/-- What `print` makes of the blocks. -/
def printed (page : List Text) : Text := page.flatMap fun block => block ++ ['\n']

/-- A text in which nothing is taken for markup. -/
def Plain (text : Text) : Prop := '<' ∉ text ∧ '"' ∉ text

/-- Whether there is nothing can be decided. -/
instance decidablePlain (text : Text) : Decidable (Plain text) :=
  inferInstanceAs (Decidable (_ ∧ _))

section Readers

variable {text source altText language body : Text} {digit : Char} {ordered : Bool}
  {items : List Text}

/-- An item is read back. -/
theorem readItem_reads (plain : Plain text) : Reads readItem (listItem text) text := by
  have word : listItem text = "<li>".toList ++ ((text ++ ['<']) ++ "/li>\n".toList) := by
    simp [listItem]
  rw [word]
  exact (reads_expect _).andThen ((reads_before plain.1).andThen (reads_expect _).mapTo)

/-- A heading is read back. -/
theorem readHeading_reads (plain : Plain text) :
    Reads readHeading (heading ['h', digit] text) (.heading digit text) := by
  have word : heading ['h', digit] text = "<h".toList ++ ([digit] ++ (">".toList ++
      ((text ++ ['<']) ++ ("/h".toList ++ [digit] ++ ">\n".toList)))) := by
    simp [heading]
  rw [word]
  exact (reads_expect _).andThen ((reads_letter digit).andThen ((reads_expect _).andThen
    ((reads_before plain.1).andThen (reads_expect _).mapTo)))

/-- A list is read back. -/
theorem readList_reads (plain : ∀ text ∈ items, Plain text) :
    Reads (readList ordered) (listHtml ordered items) (.list ordered items) := by
  have parts : items.flatMap listItem =
      (items.map fun text => (listItem text, text)).flatMap Prod.fst := by
    rw [List.flatMap_map]
  have values : (items.map fun text => (listItem text, text)).map Prod.snd = items := by
    rw [List.map_map]
    exact List.map_id items
  rw [listHtml, List.append_assoc, parts]
  refine (reads_expect _).andThen (reads_all ?_ ?_ ?_ ?_)
  · intro part mem
    obtain ⟨text, inside, rfl⟩ := List.mem_map.mp mem
    exact readItem_reads (plain text inside)
  · intro part mem
    obtain ⟨text, inside, rfl⟩ := List.mem_map.mp mem
    simp [listItem]
  · have differ : 'l' ≠ '/' := by decide
    exact (fails_expect ['<'] differ).andThen
  · rw [values]
    exact (reads_expect _).mapTo

/-- An image is read back. -/
theorem readImage_reads (plain : Plain source) (plain' : Plain altText) :
    Reads readImage (imageHtml source altText) (.image source altText) := by
  have word : imageHtml source altText = "<img src=\"".toList ++ ((source ++ ['"']) ++
      ("alt=\"".toList ++ ((altText ++ ['"']) ++ " />\n".toList))) := by
    have quote : "\"alt=\"".toList = ['"'] ++ "alt=\"".toList := by decide
    have quote' : "\" />\n".toList = ['"'] ++ " />\n".toList := by decide
    unfold imageHtml
    rw [quote, quote']
    simp only [List.append_assoc]
  rw [word]
  exact (reads_expect _).andThen ((reads_before plain.2).andThen ((reads_expect _).andThen
    ((reads_before plain'.2).andThen (reads_expect _).mapTo)))

/-- Code is read back. -/
theorem readCode_reads (plain : Plain language) (plain' : Plain body) :
    Reads readCode (codeHtml language body) (.code language body) := by
  have word : codeHtml language body = "<pre>\n<code class=\"".toList ++ ((language ++ ['"']) ++
      (">\n".toList ++ ((body ++ ['<']) ++ "/code>\n</pre>\n".toList))) := by
    have quote : "\">\n".toList = ['"'] ++ ">\n".toList := by decide
    have tag : "</code>\n</pre>\n".toList = ['<'] ++ "/code>\n</pre>\n".toList := by decide
    unfold codeHtml
    rw [quote, tag]
    simp only [List.append_assoc]
  rw [word]
  exact (reads_expect _).andThen ((reads_before plain.2).andThen ((reads_expect _).andThen
    ((reads_before plain'.1).andThen (reads_expect _).mapTo)))

/-- A reader that expects another letter after `<` fails. -/
theorem fails_tag {β : Type} {next : Unit → PrefixReader Char β} {d e : Char} {w u : Text}
    (differ : d ≠ e) : Fails ((expect ('<' :: d :: w)).andThen next) ('<' :: e :: u) :=
  Fails.andThen (fails_expect ['<'] differ)

/-- A heading begins with its own letter. -/
theorem readHeading_fails {e : Char} {u : Text} (differ : 'h' ≠ e) :
    Fails readHeading ('<' :: e :: u) := fails_tag differ

/-- A list begins with its own letter. -/
theorem readList_fails {e : Char} {u : Text} (differ : listLetter ordered ≠ e) :
    Fails (readList ordered) ('<' :: e :: u) := fails_tag differ

/-- An image begins with its own letter. -/
theorem readImage_fails {e : Char} {u : Text} (differ : 'i' ≠ e) :
    Fails readImage ('<' :: e :: u) := by
  have word : "<img src=\"".toList = '<' :: 'i' :: "mg src=\"".toList := by decide
  rw [readImage, word]
  exact fails_tag differ

/-- An element is read back. -/
theorem readElement_reads {e : Element} (plain : ∀ text ∈ e.texts, Plain text) :
    Reads readElement e.html e := by
  cases e with
  | heading digit text => exact (readHeading_reads (plain text List.mem_cons_self)).orElse
  | list ordered items =>
    have reads : Reads (readList ordered) (listHtml ordered items) (.list ordered items) :=
      readList_reads plain
    cases ordered with
    | false => exact .orElse_right (readHeading_fails (by decide)) reads.orElse
    | true =>
      exact .orElse_right (readHeading_fails (by decide))
        (.orElse_right (readList_fails (by decide)) reads.orElse)
  | image source altText =>
    obtain ⟨u, word⟩ : ∃ u, imageHtml source altText = '<' :: 'i' :: u :=
      ⟨"mg src=\"".toList ++ source ++ "\"alt=\"".toList ++ altText ++ "\" />\n".toList, rfl⟩
    have reads := readImage_reads (plain source List.mem_cons_self)
      (plain altText (List.mem_cons_of_mem _ List.mem_cons_self))
    show Reads readElement (imageHtml source altText) _
    rw [word] at reads ⊢
    exact .orElse_right (readHeading_fails (by decide)) (.orElse_right (readList_fails (by decide))
      (.orElse_right (readList_fails (by decide)) reads.orElse))
  | code language body =>
    obtain ⟨u, word⟩ : ∃ u, codeHtml language body = '<' :: 'p' :: u :=
      ⟨"re>\n<code class=\"".toList ++ language ++ "\">\n".toList ++ body ++
        "</code>\n</pre>\n".toList, rfl⟩
    have reads := readCode_reads (plain language List.mem_cons_self)
      (plain body (List.mem_cons_of_mem _ List.mem_cons_self))
    show Reads readElement (codeHtml language body) _
    rw [word] at reads ⊢
    exact .orElse_right (readHeading_fails (by decide)) (.orElse_right (readList_fails (by decide))
      (.orElse_right (readList_fails (by decide)) (.orElse_right (readImage_fails (by decide))
        reads)))

/-- The markup of an element begins with `<`. -/
theorem html_cons (e : Element) : ∃ u, e.html = '<' :: u := by
  cases e with
  | heading digit text => exact ⟨_, rfl⟩
  | list ordered items => exact ⟨_, rfl⟩
  | image source altText => exact ⟨_, rfl⟩
  | code language body => exact ⟨_, rfl⟩

/-- A block is read back as it is printed. -/
theorem readBlock_reads {element : Option Element}
    (plain : ∀ e ∈ element, ∀ text ∈ e.texts, Plain text) :
    Reads readBlock (htmlOf element ++ ['\n']) element := by
  cases element with
  | none => exact (reads_expect ['\n']).mapTo.orElse
  | some e =>
    have reads := readElement_reads (plain e rfl)
    obtain ⟨u, starts⟩ := html_cons e
    refine .orElse_right ?_ (reads.andThen (reads_expect ['\n']).mapTo)
    have differ : '\n' ≠ '<' := by decide
    show Fails _ (e.html ++ ['\n'])
    rw [starts]
    exact (fails_expect [] differ).mapTo

end Readers

/-! ## The page of a file -/

/-- The sections of a file that are not empty, each as one text. -/
def sections (decode : List UInt8 → Option Text) (content : List UInt8) : List Text :=
  ((readfile decode content).1.filter fun lines => !lines.isEmpty).map List.flatten

section Pages

variable {decode : List UInt8 → Option Text} {content : List UInt8} {page : List Text}

/-- The lines of the sections are decoded lines of the file. -/
theorem readLoop_lines {lines : List (List UInt8)} {carried section_ : List Text} {text : Text}
    (mem : section_ ∈ (readLoop decode carried lines).1) (inside : text ∈ section_) :
    text ∈ carried ∨ ∃ line ∈ lines, decode line = some text := by
  induction lines generalizing carried with
  | nil => cases mem
  | cons line lines rest =>
    rw [readLoop] at mem
    split at mem
    · cases decoded : decode line with
      | none =>
        rw [decoded] at mem
        cases mem
      | some first =>
        rw [decoded] at mem
        rcases rest mem with old | ⟨later, memLater, isText⟩
        · rcases List.mem_append.mp old with old | new
          · exact .inl old
          · obtain rfl := List.mem_singleton.mp new
            exact .inr ⟨line, List.mem_cons_self, decoded⟩
        · exact .inr ⟨later, List.mem_cons_of_mem line memLater, isText⟩
    · rcases List.mem_cons.mp mem with rfl | memLater
      · exact .inl inside
      · rcases rest memLater with old | ⟨later, memLater, isText⟩
        · cases old
        · exact .inr ⟨later, List.mem_cons_of_mem line memLater, isText⟩

/-- Sections of lines without markup have no markup. -/
theorem sections_plain
    (plain : ∀ line ∈ fileLines content, ∀ text, decode line = some text → Plain text) :
    ∀ s ∈ sections decode content, Plain s := by
  intro s mem
  obtain ⟨lines, inFile, rfl⟩ := List.mem_map.mp mem
  have each : ∀ text ∈ lines, Plain text := by
    intro text inside
    rcases readLoop_lines (List.mem_of_mem_filter inFile) inside with old | ⟨line, here, decoded⟩
    · cases old
    · exact plain line here text decoded
  constructor
  · rw [List.mem_flatten]
    rintro ⟨text, inside, isMark⟩
    exact (each text inside).1 isMark
  · rw [List.mem_flatten]
    rintro ⟨text, inside, isMark⟩
    exact (each text inside).2 isMark

/-- The elements of sections that all get a block. -/
theorem blocks_give {parts : List (List Text)} {blocks : List Text}
    (built : parts.mapM (fun lines => block lines.flatten) = some blocks) :
    ∃ elements : List (Option Element), blocks = elements.map htmlOf ∧
      List.Forall₂ (fun s element => ∀ e ∈ element, ∀ text ∈ e.texts, text <:+: s)
        (parts.map List.flatten) elements := by
  induction parts generalizing blocks with
  | nil =>
    obtain rfl := Option.some.inj built
    exact ⟨[], rfl, .nil⟩
  | cons lines parts rest =>
    rw [List.mapM_cons, Option.bind_eq_bind, Option.bind_eq_some_iff] at built
    obtain ⟨sec, first, built⟩ := built
    rw [Option.bind_eq_bind, Option.bind_eq_some_iff] at built
    obtain ⟨others, later, built⟩ := built
    obtain rfl := Option.some.inj built
    obtain ⟨element, gives⟩ := block_gives first
    obtain ⟨elements, rfl, texts⟩ := rest later
    exact ⟨element :: elements, by rw [List.map_cons, gives.block], .cons gives.texts texts⟩

/-- Elements of sections without markup have no markup in their texts. -/
theorem elements_plain {parts : List Text} {elements : List (Option Element)}
    (texts : List.Forall₂ (fun s element => ∀ e ∈ element, ∀ text ∈ e.texts, text <:+: s) parts
      elements) (plain : ∀ s ∈ parts, Plain s) :
    ∀ element ∈ elements, ∀ e ∈ element, ∀ text ∈ e.texts, Plain text := by
  induction texts with
  | nil => exact fun element mem => absurd mem List.not_mem_nil
  | cons first others rest =>
    obtain ⟨here, later⟩ := List.forall_mem_cons.mp plain
    refine List.forall_mem_cons.mpr ⟨fun e mem text inside => ?_, rest later⟩
    have part := (first e mem text inside).subset
    exact ⟨fun isMark => here.1 (part isMark), fun isMark => here.2 (part isMark)⟩

/-- The blocks are printed one after the other. -/
theorem printed_cons (b : Text) (page : List Text) :
    printed (b :: page) = b ++ ['\n'] ++ printed page := List.flatMap_cons

/-- What is printed for elements without markup in their texts is read back. -/
theorem readBehind_printed {elements : List (Option Element)} (head : Text)
    (plain : ∀ element ∈ elements, ∀ e ∈ element, ∀ text ∈ e.texts, Plain text) :
    readBehind head (head ++ printed (elements.map htmlOf)) = some elements := by
  have parts : printed (elements.map htmlOf) =
      (elements.map fun element => (htmlOf element ++ ['\n'], element)).flatMap Prod.fst := by
    rw [printed, List.flatMap_map, List.flatMap_map]
  have values : (elements.map fun element => (htmlOf element ++ ['\n'], element)).map Prod.snd =
      elements := by
    rw [List.map_map]
    exact List.map_id elements
  have first := reads_expect head (printed (elements.map htmlOf))
  have others : all readBlock (printed (elements.map htmlOf)) = some (elements, []) := by
    have reads : ∀ part ∈ elements.map fun element => (htmlOf element ++ ['\n'], element),
        Reads readBlock part.1 part.2 := by
      intro part mem
      obtain ⟨element, inside, rfl⟩ := List.mem_map.mp mem
      exact readBlock_reads (plain element inside)
    have nonempty : ∀ part ∈ elements.map fun element => (htmlOf element ++ ['\n'], element),
        part.1 ≠ [] := by
      intro part mem
      obtain ⟨element, inside, rfl⟩ := List.mem_map.mp mem
      simp
    have ends : readBlock [] = none := rfl
    have read := all_eq reads nonempty ends
    rwa [List.append_nil, ← parts, values] at read
  rw [readBehind, andThen, first, Option.bind_some, others]

/-- Each section of a file gives one element of the page, or nothing, and the texts of the element
stand in the section. When no line has a `<` or a quotation mark, the elements can be read back from
what is printed. -/
theorem page_says (parsed : parse decode content = some page) :
    ∃ elements : List (Option Element), page = gethead :: elements.map htmlOf ∧
      List.Forall₂ (fun s element => ∀ e ∈ element, ∀ text ∈ e.texts, text <:+: s)
        (sections decode content) elements ∧
      ((∀ line ∈ fileLines content, ∀ text, decode line = some text → Plain text) →
        readPage (printed page) = some elements) := by
  cases read : readfile decode content with
  | mk secs raised =>
    rw [parse, read] at parsed
    cases raised with
    | true => cases parsed
    | false =>
      obtain ⟨blocks, built, rfl⟩ := Option.map_eq_some_iff.mp parsed
      obtain ⟨elements, rfl, texts⟩ := blocks_give built
      have whole : sections decode content =
          (secs.filter fun lines => !lines.isEmpty).map List.flatten := by
        rw [sections, read]
      rw [← whole] at texts
      refine ⟨elements, rfl, texts, fun plain => ?_⟩
      rw [printed_cons]
      exact readBehind_printed _ (elements_plain texts (sections_plain plain))

/-- A heading, a list and a paragraph. -/
def threeSections : List UInt8 :=
  [35, 32, 97, 10, 10, 45, 32, 98, 10, 45, 32, 99, 10, 10, 100, 10, 10]

/-- The page of that file has a heading, a list and nothing for the paragraph. -/
theorem page_says_three : ∃ page elements, parse asciiText threeSections = some page ∧
    page = gethead :: elements.map htmlOf ∧ readPage (printed page) = some elements ∧
    elements = [some (.heading '1' ['a']), some (.list false [['b'], ['c']]), none] := by
  have ends : (parse asciiText threeSections).bind (fun page => readPage (printed page)) =
      some [some (.heading '1' ['a']), some (.list false [['b'], ['c']]), none] := by
    decide +kernel
  have plain : ∀ line ∈ fileLines threeSections, ∀ text ∈ asciiText line, Plain text := by
    decide +kernel
  obtain ⟨page, parsed, read⟩ := Option.bind_eq_some_iff.mp ends
  obtain ⟨elements, blocks, -, back⟩ := page_says parsed
  have same := back plain
  rw [read, Option.some.injEq] at same
  exact ⟨page, elements, parsed, blocks, back plain, same.symm⟩

end Pages

end CodeLearning.Markdown
