import Mathlib.Data.List.Basic

/-!
# Prefix readers

A reader takes a value from the front of a text and leaves the rest. It reads a word back as a value
when it gets that value from the word whatever comes after it. Words are read back by readers that
are put together as the words are.
-/

namespace CodeLearning

/-- A reader of values of a type from texts over an alphabet. -/
abbrev PrefixReader (α β : Type) := List α → Option (β × List α)

namespace PrefixReader

variable {α β γ : Type}

/-- One reader and then another, which may depend on the value. -/
def andThen (read : PrefixReader α β) (next : β → PrefixReader α γ) : PrefixReader α γ :=
  fun s => (read s).bind fun found => next found.1 found.2

/-- A value for the value that is read. -/
def mapTo (f : β → γ) (read : PrefixReader α β) : PrefixReader α γ :=
  fun s => (read s).map fun found => (f found.1, found.2)

/-- A reader, or another one when it fails. -/
def orElse (read other : PrefixReader α β) : PrefixReader α β := fun s => (read s).or (other s)

/-- The letters of a word. -/
def expect [DecidableEq α] : List α → PrefixReader α Unit
  | [], s => some ((), s)
  | _ :: _, [] => none
  | c :: w, d :: s => if c = d then expect w s else none

/-- One letter. -/
def letter : PrefixReader α α
  | [] => none
  | c :: s => some (c, s)

/-- The letters before the first stop letter, which is read too. -/
def before [DecidableEq α] (stop : α) : PrefixReader α (List α)
  | [] => none
  | c :: s =>
    if c = stop then some ([], s) else (before stop s).map fun found => (c :: found.1, found.2)

/-- As many values as there are, up to a number. -/
def many (read : PrefixReader α β) : Nat → PrefixReader α (List β)
  | 0, s => some ([], s)
  | count + 1, s =>
    match read s with
    | none => some ([], s)
    | some (b, rest) => (many read count rest).map fun found => (b :: found.1, found.2)

/-- As many values as there are in the text. -/
def all (read : PrefixReader α β) : PrefixReader α (List β) := fun s => read.many (s.length + 1) s

/-- A reader reads a word back as a value. -/
def Reads (read : PrefixReader α β) (u : List α) (b : β) : Prop :=
  ∀ rest, read (u ++ rest) = some (b, rest)

/-- A reader fails on a word, whatever comes after it. -/
def Fails (read : PrefixReader α β) (u : List α) : Prop := ∀ rest, read (u ++ rest) = none

section Laws

variable {read other : PrefixReader α β} {next : β → PrefixReader α γ} {u v w : List α} {b : β}
  {c : γ}

/-- Two words that are read one after the other. -/
theorem Reads.andThen (first : Reads read u b) (second : Reads (next b) v c) :
    Reads (read.andThen next) (u ++ v) c := by
  intro rest
  rw [PrefixReader.andThen, List.append_assoc, first, Option.bind_some, second]

/-- The value of a word. -/
theorem Reads.mapTo {f : β → γ} (reads : Reads read u b) : Reads (read.mapTo f) u (f b) := by
  intro rest
  rw [PrefixReader.mapTo, reads, Option.map_some]

/-- The first reader decides. -/
theorem Reads.orElse (reads : Reads read u b) : Reads (read.orElse other) u b := by
  intro rest
  rw [PrefixReader.orElse, reads, Option.some_or]

/-- The second reader decides. -/
theorem Reads.orElse_right (fails : Fails read u) (reads : Reads other u b) :
    Reads (read.orElse other) u b := by
  intro rest
  rw [PrefixReader.orElse, fails, Option.none_or, reads]

/-- What fails at first fails. -/
theorem Fails.andThen (fails : Fails read u) : Fails (read.andThen next) u := by
  intro rest
  rw [PrefixReader.andThen, fails, Option.bind_none]

/-- What fails has no value. -/
theorem Fails.mapTo {f : β → γ} (fails : Fails read u) : Fails (read.mapTo f) u := by
  intro rest
  rw [PrefixReader.mapTo, fails, Option.map_none]

/-- A letter is read back. -/
theorem reads_letter (c : α) : Reads letter [c] c := fun _ => rfl

variable [DecidableEq α]

/-- A word is read back. -/
theorem reads_expect (w : List α) : Reads (expect w) w () := by
  intro rest
  induction w with
  | nil => rfl
  | cons c w tail =>
    rw [List.cons_append, expect, if_pos rfl]
    exact tail

/-- Words that differ at some letter are told apart. -/
theorem fails_expect {d e : α} (w : List α) {v v' : List α} (differ : d ≠ e) :
    Fails (expect (w ++ d :: v)) (w ++ e :: v') := by
  intro rest
  induction w with
  | nil =>
    rw [List.nil_append, List.nil_append, List.cons_append, expect, if_neg differ]
  | cons c w tail =>
    rw [List.cons_append, List.cons_append, List.cons_append, expect, if_pos rfl]
    exact tail

/-- A text without the stop letter is read back. -/
theorem reads_before {stop : α} (without : stop ∉ u) : Reads (before stop) (u ++ [stop]) u := by
  intro rest
  induction u with
  | nil =>
    rw [List.nil_append, List.singleton_append, before, if_pos rfl]
  | cons c u tail =>
    obtain ⟨first, later⟩ := not_or.mp (mt List.mem_cons.mpr without)
    rw [List.cons_append, List.cons_append, before, if_neg (Ne.symm first), tail later,
      Option.map_some]

omit [DecidableEq α] in
/-- Values are read back one after the other, if what comes after them is not read as one more. -/
theorem many_eq {parts : List (List α × β)} {rest : List α} {count : Nat}
    (reads : ∀ part ∈ parts, Reads read part.1 part.2) (ends : read rest = none)
    (enough : parts.length < count) :
    many read count (parts.flatMap Prod.fst ++ rest) = some (parts.map Prod.snd, rest) := by
  induction parts generalizing count with
  | nil =>
    obtain ⟨count, rfl⟩ := Nat.exists_eq_succ_of_ne_zero (Nat.ne_of_gt enough)
    rw [List.flatMap_nil, List.nil_append, many, ends]
    rfl
  | cons part parts tail =>
    obtain ⟨count, rfl⟩ := Nat.exists_eq_succ_of_ne_zero (Nat.ne_of_gt (Nat.zero_lt_of_lt enough))
    have first := reads part List.mem_cons_self (parts.flatMap Prod.fst ++ rest)
    have later := tail (fun other mem => reads other (List.mem_cons_of_mem part mem))
      (Nat.lt_of_succ_lt_succ enough)
    rw [List.flatMap_cons, List.append_assoc, many, first]
    simp only [later, Option.map_some, List.map_cons]

omit [DecidableEq α] in
/-- Words that are not empty are no more than their letters. -/
theorem length_le_flatMap {parts : List (List α × β)} (nonempty : ∀ part ∈ parts, part.1 ≠ []) :
    parts.length ≤ (parts.flatMap Prod.fst).length := by
  induction parts with
  | nil => exact Nat.le_refl 0
  | cons part parts tail =>
    have first := List.length_pos_iff.mpr (nonempty part List.mem_cons_self)
    have later := tail fun other mem => nonempty other (List.mem_cons_of_mem part mem)
    rw [List.flatMap_cons, List.length_append, List.length_cons]
    omega

omit [DecidableEq α] in
/-- All values are read back, if what comes after them is not read as one more. -/
theorem all_eq {parts : List (List α × β)} {rest : List α}
    (reads : ∀ part ∈ parts, Reads read part.1 part.2) (nonempty : ∀ part ∈ parts, part.1 ≠ [])
    (ends : read rest = none) :
    all read (parts.flatMap Prod.fst ++ rest) = some (parts.map Prod.snd, rest) := by
  refine many_eq reads ends ?_
  have few := length_le_flatMap nonempty
  rw [List.length_append]
  omega

omit [DecidableEq α] in
/-- Values are read back one after the other, and then what comes after them. -/
theorem reads_all {parts : List (List α × β)} {next : List β → PrefixReader α γ}
    (reads : ∀ part ∈ parts, Reads read part.1 part.2) (nonempty : ∀ part ∈ parts, part.1 ≠ [])
    (fails : Fails read v) (second : Reads (next (parts.map Prod.snd)) v c) :
    Reads ((all read).andThen next) (parts.flatMap Prod.fst ++ v) c := by
  intro rest
  rw [PrefixReader.andThen, List.append_assoc, all_eq reads nonempty (fails rest),
    Option.bind_some, second]

end Laws

end PrefixReader

end CodeLearning
