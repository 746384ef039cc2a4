import Mathlib.Data.List.Basic

/-!
# Backtracking matches

A pattern matches a text in several ways, and a backtracking matcher takes the first one in the
order of its choices: a greedy repetition tries the longest run first, a lazy one the shortest, and
an alternative its left side. `run` lists the matches at the front of a text in that order, `search`
looks for the first place with one and `findall` collects them from left to right without overlap.
Which texts match at all does not depend on the order: they are the words of the `Language`.
-/

namespace CodeLearning

variable {α : Type}

/-- Patterns. Repetitions are of single letters. -/
inductive Regex (α : Type) where
  /-- One letter of a set. -/
  | set (p : α → Bool)
  /-- One pattern and then another. -/
  | seq (first second : Regex α)
  /-- Either pattern, the left one first. -/
  | alt (left right : Regex α)
  /-- Any number of letters of a set, as many as possible. -/
  | greedy (p : α → Bool)
  /-- Any number of letters of a set, as few as possible. -/
  | lazy (p : α → Bool)
  /-- A pattern whose text is captured under a number. -/
  | group (number : Nat) (inner : Regex α)

namespace Regex

/-- One way to match the front of a text. -/
structure Match (α : Type) where
  /-- The captured texts with their numbers. -/
  captures : List (Nat × List α)
  /-- The text that is matched. -/
  text : List α
  /-- The text after it. -/
  rest : List α

/-- One match and then another. -/
def Match.append (first second : Match α) : Match α :=
  ⟨first.captures ++ second.captures, first.text ++ second.text, second.rest⟩

/-- A match whose text is captured. -/
def Match.capture (number : Nat) (inner : Match α) : Match α :=
  ⟨(number, inner.text) :: inner.captures, inner.text, inner.rest⟩

/-- The text of a group; empty when the group took no part in the match. -/
def captured (captures : List (Nat × List α)) (number : Nat) : List α :=
  (captures.lookup number).getD []

/-- The runs of letters of a set at the front of a text, the shortest first, each with the rest. -/
def runs (p : α → Bool) : List α → List (List α × List α)
  | [] => [([], [])]
  | c :: s => ([], c :: s) :: if p c then (runs p s).map fun run => (c :: run.1, run.2) else []

/-- The matches at the front of a text, in the order in which they are tried. -/
def run : Regex α → List α → List (Match α)
  | .set _, [] => []
  | .set p, c :: s => if p c then [⟨[], [c], s⟩] else []
  | .seq first second, s =>
    (run first s).flatMap fun x => (run second x.rest).map fun y => x.append y
  | .alt left right, s => run left s ++ run right s
  | .greedy p, s => (runs p s).reverse.map fun x => ⟨[], x.1, x.2⟩
  | .lazy p, s => (runs p s).map fun x => ⟨[], x.1, x.2⟩
  | .group number inner, s => (run inner s).map fun x => x.capture number

/-- The first match at the first place that has one. -/
def search (r : Regex α) : List α → Option (Match α)
  | [] => (run r []).head?
  | c :: s => (run r (c :: s)).head?.or (search r s)

/-- The captures of the matches from left to right, after some letters that are skipped. -/
def findallFrom (r : Regex α) : Nat → List α → List (List (Nat × List α))
  | _, [] => ((run r []).head?.map Match.captures).toList
  | skip + 1, _ :: s => findallFrom r skip s
  | 0, c :: s =>
    match (run r (c :: s)).head? with
    | none => findallFrom r 0 s
    | some m => m.captures :: findallFrom r (m.text.length - 1) s

/-- The captures of the matches from left to right. -/
def findall (r : Regex α) (s : List α) : List (List (Nat × List α)) := findallFrom r 0 s

/-- The texts that a pattern matches. -/
def Language : Regex α → List α → Prop
  | .set p, u => ∃ c, p c = true ∧ u = [c]
  | .seq first second, u => ∃ x y, u = x ++ y ∧ Language first x ∧ Language second y
  | .alt left right, u => Language left u ∨ Language right u
  | .greedy p, u => ∀ c ∈ u, p c = true
  | .lazy p, u => ∀ c ∈ u, p c = true
  | .group _ inner, u => Language inner u

/-- At least one letter of a set, as many as possible. -/
def plus (p : α → Bool) : Regex α := .seq (.set p) (.greedy p)

/-- The letters of a word and then a pattern. -/
def literal [BEq α] (w : List α) (r : Regex α) : Regex α :=
  w.foldr (fun c rest => .seq (.set (· == c)) rest) r

/-! ## Which texts match -/

section Languages

variable {p : α → Bool} {r : Regex α} {s u v : List α}

/-- The runs are the splits of the text whose front is in the set. -/
theorem mem_runs : (u, v) ∈ runs p s ↔ s = u ++ v ∧ ∀ c ∈ u, p c = true := by
  induction s generalizing u with
  | nil => simp +contextual [runs]
  | cons c s before =>
    simp only [runs, List.mem_cons, Prod.mk.injEq]
    cases u with
    | nil =>
      have notMem :
          ([], v) ∉ if p c then (runs p s).map fun run => (c :: run.1, run.2) else [] := by
        split
        · simp
        · simp
      simp only [notMem, true_and, or_false, List.nil_append, List.not_mem_nil, false_imp_iff,
        implies_true, and_true]
      exact eq_comm
    | cons d u =>
      by_cases inside : p c = true
      · simp only [reduceCtorEq, false_and, false_or, inside, if_true, List.mem_map,
          Prod.mk.injEq, List.cons.injEq, Prod.exists, List.cons_append, List.forall_mem_cons]
        constructor
        · rintro ⟨x, y, mem, ⟨rfl, rfl⟩, rfl⟩
          obtain ⟨rfl, all⟩ := before.mp mem
          exact ⟨⟨rfl, rfl⟩, inside, all⟩
        · rintro ⟨⟨rfl, rfl⟩, -, all⟩
          exact ⟨u, v, before.mpr ⟨rfl, all⟩, ⟨rfl, rfl⟩, rfl⟩
      · simp only [reduceCtorEq, false_and, false_or, inside, Bool.false_eq_true, if_false,
          List.not_mem_nil, false_iff, List.cons_append, List.cons.injEq, List.forall_mem_cons]
        rintro ⟨⟨rfl, -⟩, here, -⟩
        exact inside here

/-- The words of a repetition with at least one letter. -/
theorem language_plus : Language (plus p) u ↔ u ≠ [] ∧ ∀ c ∈ u, p c = true := by
  constructor
  · rintro ⟨x, y, rfl, ⟨c, inside, rfl⟩, all⟩
    exact ⟨by simp, List.forall_mem_cons.mpr ⟨inside, all⟩⟩
  · rintro ⟨nonempty, all⟩
    cases u with
    | nil => exact absurd rfl nonempty
    | cons c u =>
      exact ⟨[c], u, rfl, ⟨c, all c List.mem_cons_self, rfl⟩,
        fun d mem => all d (List.mem_cons_of_mem _ mem)⟩

/-- The words that start with a fixed word. -/
theorem language_literal [BEq α] [LawfulBEq α] {w : List α} :
    Language (literal w r) u ↔ ∃ v, u = w ++ v ∧ Language r v := by
  induction w generalizing u with
  | nil => simp [literal]
  | cons c w before =>
    constructor
    · rintro ⟨x, y, rfl, ⟨d, same, rfl⟩, later⟩
      obtain ⟨v, rfl, word⟩ := before.mp later
      exact ⟨v, by rw [eq_of_beq same]; rfl, word⟩
    · rintro ⟨v, rfl, word⟩
      exact ⟨[c], w ++ v, rfl, ⟨c, beq_self_eq_true c, rfl⟩, before.mpr ⟨v, rfl, word⟩⟩

/-- Every match splits the text, and its front is in the language. -/
theorem mem_run {m : Match α} (mem : m ∈ run r s) : s = m.text ++ m.rest ∧ Language r m.text := by
  induction r generalizing s m with
  | set p =>
    cases s with
    | nil => cases mem
    | cons c s =>
      rw [run] at mem
      split at mem
      · rename_i inside
        obtain rfl := List.mem_singleton.mp mem
        exact ⟨rfl, c, inside, rfl⟩
      · cases mem
  | seq first second before1 before2 =>
    simp only [run, List.mem_flatMap, List.mem_map] at mem
    obtain ⟨x, mem1, y, mem2, rfl⟩ := mem
    obtain ⟨split1, word1⟩ := before1 mem1
    obtain ⟨split2, word2⟩ := before2 mem2
    exact ⟨by rw [split1, split2, Match.append, List.append_assoc], x.text, y.text, rfl, word1,
      word2⟩
  | alt left right before1 before2 =>
    rcases List.mem_append.mp mem with mem1 | mem2
    · exact ⟨(before1 mem1).1, Or.inl (before1 mem1).2⟩
    · exact ⟨(before2 mem2).1, Or.inr (before2 mem2).2⟩
  | greedy p =>
    simp only [run, List.mem_map, List.mem_reverse, Prod.exists] at mem
    obtain ⟨u, v, mem, rfl⟩ := mem
    exact mem_runs.mp mem
  | lazy p =>
    simp only [run, List.mem_map, Prod.exists] at mem
    obtain ⟨u, v, mem, rfl⟩ := mem
    exact mem_runs.mp mem
  | group number inner before =>
    simp only [run, List.mem_map] at mem
    obtain ⟨x, mem, rfl⟩ := mem
    obtain ⟨split, word⟩ := before mem
    exact ⟨split, word⟩

/-- Every word of the language is matched at the front of a text. -/
theorem exists_mem_run (word : Language r u) (v : List α) :
    ∃ captures, ⟨captures, u, v⟩ ∈ run r (u ++ v) := by
  induction r generalizing u v with
  | set p =>
    obtain ⟨c, inside, rfl⟩ := word
    exact ⟨[], by simp [run, inside]⟩
  | seq first second before1 before2 =>
    obtain ⟨x, y, rfl, word1, word2⟩ := word
    obtain ⟨captures1, mem1⟩ := before1 word1 (y ++ v)
    obtain ⟨captures2, mem2⟩ := before2 word2 v
    refine ⟨captures1 ++ captures2, ?_⟩
    rw [List.append_assoc, run, List.mem_flatMap]
    exact ⟨_, mem1, List.mem_map.mpr ⟨_, mem2, rfl⟩⟩
  | alt left right before1 before2 =>
    rcases word with word1 | word2
    · obtain ⟨captures, mem⟩ := before1 word1 v
      exact ⟨captures, List.mem_append_left _ mem⟩
    · obtain ⟨captures, mem⟩ := before2 word2 v
      exact ⟨captures, List.mem_append_right _ mem⟩
  | greedy p =>
    refine ⟨[], ?_⟩
    rw [run, List.mem_map]
    exact ⟨(u, v), List.mem_reverse.mpr (mem_runs.mpr ⟨rfl, word⟩), rfl⟩
  | lazy p =>
    refine ⟨[], ?_⟩
    rw [run, List.mem_map]
    exact ⟨(u, v), mem_runs.mpr ⟨rfl, word⟩, rfl⟩
  | group number inner before =>
    obtain ⟨captures, mem⟩ := before word v
    exact ⟨(number, u) :: captures, List.mem_map.mpr ⟨_, mem, rfl⟩⟩

/-- A text has no match at its front exactly when no word of the language stands there. -/
theorem run_eq_nil_iff : run r s = [] ↔ ∀ u v, s = u ++ v → ¬ Language r u := by
  constructor
  · rintro none_ u v rfl word
    obtain ⟨captures, mem⟩ := exists_mem_run word v
    rw [none_] at mem
    cases mem
  · intro none_
    rw [List.eq_nil_iff_forall_not_mem]
    intro m mem
    obtain ⟨split, word⟩ := mem_run mem
    exact none_ _ _ split word

/-- A word of the language stands somewhere in the text. -/
def Occurs (r : Regex α) (s : List α) : Prop := ∃ u, Language r u ∧ u <:+: s

/-- A word stands in a text at its front or in its tail. -/
theorem occurs_cons {c : α} :
    Occurs r (c :: s) ↔ (∃ u v, c :: s = u ++ v ∧ Language r u) ∨ Occurs r s := by
  constructor
  · rintro ⟨u, word, inside⟩
    rcases List.infix_cons_iff.mp inside with ⟨v, split⟩ | later
    · exact Or.inl ⟨u, v, split.symm, word⟩
    · exact Or.inr ⟨u, word, later⟩
  · rintro (⟨u, v, split, word⟩ | ⟨u, word, later⟩)
    · exact ⟨u, word, split ▸ (List.prefix_append u v).isInfix⟩
    · exact ⟨u, word, List.infix_cons later⟩

/-- `findall` finds something exactly when a word of the language stands in the text. -/
theorem findall_ne_nil_iff : findall r s ≠ [] ↔ Occurs r s := by
  unfold findall
  induction s with
  | nil =>
    have front := @run_eq_nil_iff α r []
    rw [findallFrom]
    cases found : run r [] with
    | nil =>
      simp only [List.head?_nil, Option.map_none, Option.toList_none, ne_eq, not_true, false_iff]
      rintro ⟨u, word, inside⟩
      exact front.mp found u [] (by rw [List.infix_nil.mp inside, List.append_nil]) word
    | cons m others =>
      simp only [List.head?_cons, Option.map_some, Option.toList_some, ne_eq, List.cons_ne_nil,
        not_false_iff, true_iff]
      have mem : m ∈ run r [] := by rw [found]; exact List.mem_cons_self
      obtain ⟨split, word⟩ := mem_run mem
      exact ⟨m.text, word, ⟨[], m.rest, by rw [List.nil_append, ← split]⟩⟩
  | cons c s before =>
    rw [findallFrom, occurs_cons, ← before]
    cases found : run r (c :: s) with
    | nil =>
      have front := run_eq_nil_iff.mp found
      simp only [List.head?_nil]
      rw [or_iff_right]
      rintro ⟨u, v, split, word⟩
      exact front u v split word
    | cons m others =>
      simp only [List.head?_cons, ne_eq, List.cons_ne_nil, not_false_iff, true_iff]
      have mem : m ∈ run r (c :: s) := by rw [found]; exact List.mem_cons_self
      obtain ⟨split, word⟩ := mem_run mem
      exact Or.inl ⟨_, _, split, word⟩

/-- A word of an alternative is one of either side. -/
theorem occurs_alt {left right : Regex α} :
    Occurs (.alt left right) s ↔ Occurs left s ∨ Occurs right s := by
  simp only [Occurs, Language, or_and_right, exists_or]

/-- `search` finds something exactly when `findall` does. -/
theorem search_isSome_iff : (search r s).isSome ↔ Occurs r s := by
  rw [← findall_ne_nil_iff, findall]
  induction s with
  | nil =>
    rw [search, findallFrom]
    cases (run r []).head? with
    | none => simp
    | some m => simp
  | cons c s before =>
    rw [search, findallFrom]
    cases (run r (c :: s)).head? with
    | none => simpa using before
    | some m => simp

end Languages

/-! ## The first match -/

section First

variable {p q : α → Bool} {first second r : Regex α} {s u v : List α} {x y m : Match α}

/-- The first match of a sequence, when the first choice for its first part can be continued. -/
theorem head_seq (head1 : (run first s).head? = some x)
    (head2 : (run second x.rest).head? = some y) :
    (run (.seq first second) s).head? = some (x.append y) := by
  obtain ⟨others, runs1⟩ := List.head?_eq_some_iff.mp head1
  obtain ⟨others2, runs2⟩ := List.head?_eq_some_iff.mp head2
  rw [run, runs1, List.flatMap_cons, runs2]
  rfl

/-- The first match of a group. -/
theorem head_group (number : Nat) (head : (run r s).head? = some x) :
    (run (.group number r) s).head? = some (x.capture number) := by
  rw [run, List.head?_map, head]
  rfl

/-- The first match of an alternative whose left side matches. -/
theorem head_alt_left (head : (run first s).head? = some x) :
    (run (.alt first second) s).head? = some x := by
  rw [run, List.head?_append, head]
  rfl

/-- The first match of an alternative whose left side does not match. -/
theorem head_alt_right (none_ : run first s = []) (head : (run second s).head? = some x) :
    (run (.alt first second) s).head? = some x := by
  rw [run, none_, List.nil_append, head]

/-- The first match of one letter. -/
theorem head_set {c : α} (inside : p c = true) :
    (run (.set p) (c :: s)).head? = some ⟨[], [c], s⟩ := by
  rw [run, if_pos inside]
  rfl

/-- A greedy repetition takes the whole run at the front. -/
theorem runs_reverse (all : ∀ c ∈ u, p c = true) (ends : ∀ c, v.head? = some c → p c = false) :
    (runs p (u ++ v)).reverse.head? = some (u, v) := by
  rw [List.head?_reverse]
  induction u with
  | nil =>
    cases v with
    | nil => rfl
    | cons c v => simp [runs, ends c rfl]
  | cons c u before =>
    have later := before fun d mem => all d (List.mem_cons_of_mem _ mem)
    rw [List.cons_append, runs, if_pos (all c List.mem_cons_self), List.getLast?_cons,
      List.getLast?_map, later]
    rfl

/-- The first match of a greedy repetition. -/
theorem head_greedy (all : ∀ c ∈ u, p c = true) (ends : ∀ c, v.head? = some c → p c = false) :
    (run (.greedy p) (u ++ v)).head? = some ⟨[], u, v⟩ := by
  rw [run, List.head?_map, runs_reverse all ends]
  rfl

/-- The shortest run of a set after which a letter of another set comes. -/
theorem head_runs {c : α} {β : Type} (all : ∀ d ∈ u, p d = true) (outside : ∀ d ∈ u, q d = false)
    (inside : q c = true) (f : List α → Match α → β) :
    ((runs p (u ++ c :: v)).flatMap fun x => (run (.set q) x.2).map fun y => f x.1 y).head? =
      some (f u ⟨[], [c], v⟩) := by
  induction u generalizing f with
  | nil => simp [runs, run, inside]
  | cons d u before =>
    have later := before (fun e mem => all e (List.mem_cons_of_mem _ mem))
      (fun e mem => outside e (List.mem_cons_of_mem _ mem)) fun x => f (d :: x)
    have stops : run (.set q) (d :: (u ++ c :: v)) = [] := by
      rw [run, if_neg (by simp [outside d List.mem_cons_self])]
    rw [List.cons_append, runs, if_pos (all d List.mem_cons_self), List.flatMap_cons, stops,
      List.map_nil, List.nil_append, List.flatMap_map]
    exact later

/-- The first match of a repetition with at least one letter. -/
theorem head_plus (all : ∀ c ∈ u, p c = true) (nonempty : u ≠ [])
    (ends : ∀ c, v.head? = some c → p c = false) :
    (run (plus p) (u ++ v)).head? = some ⟨[], u, v⟩ := by
  cases u with
  | nil => exact absurd rfl nonempty
  | cons c u =>
    exact head_seq (head_set (all c List.mem_cons_self))
      (head_greedy (fun d mem => all d (List.mem_cons_of_mem _ mem)) ends)

/-- A lazy repetition up to a letter takes what is before the first such letter. -/
theorem head_lazy {c : α} (number : Nat) (all : ∀ d ∈ u, p d = true)
    (outside : ∀ d ∈ u, q d = false) (inside : q c = true) :
    (run (.seq (.group number (.lazy p)) (.set q)) (u ++ c :: v)).head? =
      some ⟨[(number, u)], u ++ [c], v⟩ := by
  simp only [run, List.flatMap_map]
  exact head_runs all outside inside fun x y => Match.append (.capture number ⟨[], x, y.text⟩) y

/-- The runs of a set in a text that is one of them, from the longest one on. -/
theorem runs_concat {c : α} (all : ∀ d ∈ u, p d = true) (last : p c = true) :
    ∃ shorter, (runs p (u ++ [c])).reverse = (u ++ [c], []) :: (u, [c]) :: shorter := by
  induction u with
  | nil => exact ⟨[], by simp [runs, last]⟩
  | cons d u before =>
    obtain ⟨shorter, later⟩ := before fun e mem => all e (List.mem_cons_of_mem _ mem)
    rw [List.cons_append, runs, if_pos (all d List.mem_cons_self), List.reverse_cons,
      ← List.map_reverse, later]
    exact ⟨_, rfl⟩

/-- A greedy repetition that takes the whole text gives its last letter back when the rest of the
pattern needs it. -/
theorem head_greedy_back {c : α} {between : α → Bool} (number : Nat) (all : ∀ d ∈ u, p d = true)
    (last : p c = true) (inside : q c = true) :
    (run (.seq (.greedy p) (.seq (.group number (.lazy between)) (.set q))) (u ++ [c])).head? =
      some ⟨[(number, [])], u ++ [c], []⟩ := by
  obtain ⟨shorter, longest⟩ := runs_concat all last
  rw [run, run, longest]
  simp [run, runs, inside, Match.append, Match.capture]

/-- A sequence does not match where its first part does not. -/
theorem run_seq_nil (none_ : run first s = []) : run (.seq first second) s = [] := by
  rw [run, none_, List.flatMap_nil]

/-- The first thing that `findall` finds in a text with a match at its front. -/
theorem findall_head (head : (run r s).head? = some m) :
    (findall r s).head? = some m.captures := by
  rw [findall]
  cases s with
  | nil =>
    rw [findallFrom, head]
    rfl
  | cons c s =>
    rw [findallFrom, head]
    rfl

/-- `findall` takes the first match at the front and goes on after it. -/
theorem findall_append (head : (run r (u ++ v)).head? = some m) (text : m.text = u)
    (nonempty : u ≠ []) : findall r (u ++ v) = m.captures :: findall r v := by
  have skips : ∀ w : List α, findallFrom r w.length (w ++ v) = findallFrom r 0 v := by
    intro w
    induction w with
    | nil => rfl
    | cons c w before => exact before
  cases u with
  | nil => exact absurd rfl nonempty
  | cons c u =>
    rw [findall, List.cons_append, findallFrom, ← List.cons_append, head]
    simp only [text, List.length_cons, Nat.add_sub_cancel]
    rw [skips]
    rfl

end First

/-! ## Where captures come from -/

section Captures

variable {r : Regex α} {s : List α}

/-- What a match captures stands in its text. -/
theorem run_captures {m : Match α} (mem : m ∈ run r s) :
    ∀ capture ∈ m.captures, capture.2 <:+: m.text := by
  induction r generalizing s m with
  | set p =>
    cases s with
    | nil => cases mem
    | cons c s =>
      rw [run] at mem
      split at mem
      · obtain rfl := List.mem_singleton.mp mem
        exact fun capture inside => absurd inside List.not_mem_nil
      · cases mem
  | seq first second before1 before2 =>
    simp only [run, List.mem_flatMap, List.mem_map] at mem
    obtain ⟨x, mem1, y, mem2, rfl⟩ := mem
    intro capture inside
    rcases List.mem_append.mp inside with inside1 | inside2
    · exact (before1 mem1 capture inside1).trans (List.prefix_append _ _).isInfix
    · exact (before2 mem2 capture inside2).trans (List.suffix_append _ _).isInfix
  | alt left right before1 before2 =>
    rcases List.mem_append.mp mem with mem1 | mem2
    · exact before1 mem1
    · exact before2 mem2
  | greedy p =>
    simp only [run, List.mem_map] at mem
    obtain ⟨x, -, rfl⟩ := mem
    exact fun capture inside => absurd inside List.not_mem_nil
  | lazy p =>
    simp only [run, List.mem_map] at mem
    obtain ⟨x, -, rfl⟩ := mem
    exact fun capture inside => absurd inside List.not_mem_nil
  | group number inner before =>
    simp only [run, List.mem_map] at mem
    obtain ⟨x, mem, rfl⟩ := mem
    intro capture inside
    rcases List.mem_cons.mp inside with rfl | inside
    · exact List.infix_rfl
    · exact before mem capture inside

/-- What the first match at the front of a text captures stands in the text. -/
theorem head_captures {m : Match α} (head : (run r s).head? = some m) :
    ∀ capture ∈ m.captures, capture.2 <:+: s := by
  intro capture inside
  have mem := List.mem_of_mem_head? head
  have text : m.text <:+: s := by
    rw [(mem_run mem).1]
    exact (List.prefix_append _ _).isInfix
  exact (run_captures mem capture inside).trans text

/-- What `findall` captures stands in the text. -/
theorem findall_captures {found : List (Nat × List α)} (mem : found ∈ findall r s) :
    ∀ capture ∈ found, capture.2 <:+: s := by
  have all : ∀ skip, found ∈ findallFrom r skip s → ∀ capture ∈ found, capture.2 <:+: s := by
    clear mem
    induction s with
    | nil =>
      intro skip mem
      rw [findallFrom, Option.mem_toList, Option.map_eq_some_iff] at mem
      obtain ⟨m, head, rfl⟩ := mem
      exact head_captures head
    | cons c s tail =>
      intro skip mem capture inside
      cases skip with
      | succ skip => exact List.infix_cons (tail skip mem capture inside)
      | zero =>
        rw [findallFrom] at mem
        split at mem
        · exact List.infix_cons (tail 0 mem capture inside)
        · rename_i m head
          rcases List.mem_cons.mp mem with rfl | later
          · exact head_captures head capture inside
          · exact List.infix_cons (tail _ later capture inside)
  exact all 0 mem

/-- The text of a group stands in the text. -/
theorem captured_infix {found : List (Nat × List α)} (mem : found ∈ findall r s) (number : Nat) :
    captured found number <:+: s := by
  rw [captured]
  cases inside : found.lookup number with
  | none => exact List.nil_infix
  | some text =>
    obtain ⟨before, after, split, -⟩ := List.lookup_eq_some_iff.mp inside
    exact findall_captures mem (number, text) (by simp [split])

end Captures

end Regex

end CodeLearning
