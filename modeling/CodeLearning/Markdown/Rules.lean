import CodeLearning.Lib.Regex
import CodeLearning.Markdown.ReadMd

/-!
# The rules of the Markdown parser

Each rule has a pattern, a condition under which it applies to a section, and a replacement. The
patterns are not anchored: a rule applies when its pattern matches anywhere in the section. The
parser tries all rules on each section, and the last one that applies gives the block. The patterns
are compiled without the Unicode flag, so that white space and digits are those of ASCII.
-/

namespace CodeLearning.Markdown

open Regex

/-- Decoded text. -/
abbrev Text := List Char

/-- `\s`. -/
def isSpace (c : Char) : Bool :=
  c == ' ' || c == '\t' || c == '\n' || c == '\r' || c == '\x0b' || c == '\x0c'

/-- `.` without `re.S`. -/
def notNewline (c : Char) : Bool := c != '\n'

/-- A line break. -/
def lineEnd : Regex Char := .set (· == '\n')

/-- What most patterns end with: a marker, white space and the rest of the line. -/
def spaced (marker text : Nat) (r : Regex Char) : Regex Char :=
  .seq (.group marker r) (.seq (plus isSpace) (.seq (.group text (.lazy notNewline)) lineEnd))

/-- The pattern of `TitleRule`. -/
def titlePattern : Regex Char :=
  .seq (.group 1 (plus (· == '#')))
    (.seq (.greedy isSpace) (.seq (.group 2 (.lazy notNewline)) lineEnd))

/-- The pattern of `UnorderedList`. -/
def unorderedPattern : Regex Char :=
  .alt (spaced 1 2 (.set (· == '-')))
    (.alt (spaced 3 4 (.set (· == '+'))) (spaced 5 6 (.set (· == '*'))))

/-- The pattern of `OrderedList`. -/
def orderedPattern : Regex Char :=
  spaced 1 2 (.seq (.set Char.isDigit) (.set (· == '.')))

/-- The pattern of `Image`. -/
def imagePattern : Regex Char :=
  literal "![".toList (.seq (.group 1 (.lazy notNewline)) (literal "](".toList
    (.seq (.group 2 (.lazy notNewline)) (literal ")".toList lineEnd))))

/-- The pattern of `Code`, in which `.` is any character. -/
def codePattern : Regex Char :=
  literal "```".toList (.seq (.greedy isSpace) (.seq (.group 1 (.lazy fun _ => true))
    (literal "\n".toList (.seq (.group 2 (.lazy fun _ => true)) (literal "```".toList lineEnd)))))

/-- A rule. -/
structure Rule where
  /-- Whether the rule applies to a section. -/
  condition : Text → Bool
  /-- The block for a section; `none` when it asks for the first match and there is none. -/
  replace : Text → Option Text

/-- A heading of a level. -/
def heading (tag text : Text) : Text :=
  "<".toList ++ tag ++ ">".toList ++ text ++ "</".toList ++ tag ++ ">\n".toList

/-- The item of a list. -/
def listItem (text : Text) : Text := "<li>".toList ++ text ++ "</li>\n".toList

/-- `TitleRule`. -/
def titleRule : Rule where
  condition s := (search titlePattern s).isSome
  replace s :=
    (findall titlePattern s).head?.map fun found =>
      match (captured found 1).length with
      | 1 => heading "h1".toList (captured found 2)
      | 2 => heading "h2".toList (captured found 2)
      | 3 => heading "h3".toList (captured found 2)
      | 4 => heading "h4".toList (captured found 2)
      | 5 => heading "h5".toList (captured found 2)
      | 6 => heading "h6".toList (captured found 2)
      | _ => []

/-- The part of `UnorderedList.replace` for one match. -/
def unorderedItem (found : List (Nat × Text)) : Text :=
  if captured found 1 ≠ [] then listItem (captured found 2)
  else if captured found 3 ≠ [] then listItem (captured found 4)
  else if captured found 5 ≠ [] then listItem (captured found 6)
  else []

/-- `UnorderedList`. -/
def unorderedList : Rule where
  condition s := !(findall unorderedPattern s).isEmpty
  replace s := some ("<ul>\n".toList ++ (findall unorderedPattern s).flatMap unorderedItem ++
    "</ul>\n".toList)

/-- `OrderedList`. -/
def orderedList : Rule where
  condition s := !(findall orderedPattern s).isEmpty
  replace s := some ("<ol>\n".toList ++
    (findall orderedPattern s).flatMap (fun found => listItem (captured found 2)) ++
    "</ol>\n".toList)

/-- `Image`. -/
def image : Rule where
  condition s := !(findall imagePattern s).isEmpty
  replace s := (findall imagePattern s).head?.map fun found =>
    "<img src=\"".toList ++ captured found 2 ++ "\"alt=\"".toList ++ captured found 1 ++
      "\" />\n".toList

/-- `Code`. -/
def code : Rule where
  condition s := !(findall codePattern s).isEmpty
  replace s := (findall codePattern s).head?.map fun found =>
    "<pre>\n<code class=\"".toList ++ captured found 1 ++ "\">\n".toList ++ captured found 2 ++
      "</code>\n</pre>\n".toList

/-- The rules of `BasicTextParser`, in their order. -/
def basicTextParser : List Rule := [titleRule, unorderedList, orderedList, image, code]

/-- The block of a section: the loop over the rules in `Parser.parse`, with the block so far. -/
def applyRules : List Rule → Text → Text → Option Text
  | [], _, sec => some sec
  | rule :: rules, s, sec =>
    if rule.condition s then (rule.replace s).bind fun sec => applyRules rules s sec
    else applyRules rules s sec

/-- The block that `BasicTextParser` appends for a section. -/
def block (s : Text) : Option Text := applyRules basicTextParser s []

/-- `GetHead.gethead`. -/
def gethead : Text :=
  ("<link href=\"http://apps.bdimg.com/libs/highlight.js/9.1.0/styles/default.min.css\" " ++
    "rel=\"stylesheet\">\n" ++
    "<script src=\"http://apps.bdimg.com/libs/highlight.js/9.1.0/highlight.min.js\"></script>\n" ++
    "<script>hljs.initHighlightingOnLoad();</script>\n").toList

/-- `Parser.parse`: the blocks of the head and of the sections that are not empty; `none` when
something raises. -/
def parse (decode : List UInt8 → Option Text) (content : List UInt8) : Option (List Text) :=
  let (sections, raised) := readfile decode content
  if raised then none
  else (((sections.filter fun lines => !lines.isEmpty).mapM fun lines => block lines.flatten)).map
    fun blocks => gethead :: blocks

end CodeLearning.Markdown
