import CodeLearning.OpenServer.Request

/-!
# The arguments of a request in memory

`buf_args` cuts the request up in place: `strtok` writes a null byte over the separator after each
token and remembers where it stopped, and `argv` holds pointers into the buffer. The first pointer
is the buffer itself and not the first token, so that separators in front of the request stay in
`argv[0]`. The array has room for 49 tokens and the null pointer after them.
-/

namespace CodeLearning.OpenServer.InPlace

open Words

/-- A slot of `argv`. -/
inductive Slot where
  /-- Nothing was written to it. -/
  | unset
  /-- The null pointer. -/
  | null
  /-- A pointer into the buffer, as an offset. -/
  | pointer (offset : Nat)
deriving DecidableEq

/-- The array `argv`. -/
abbrev Argv := Vector Slot maxargc

/-- What `buf_args` does. -/
inductive Result where
  /-- It returns -1. -/
  | minusOne
  /-- It returns what `optfunc` does with these arguments and this buffer. -/
  | calls (argc : Nat) (argv : Argv) (buf : Bytes)
  /-- It indexes `argv` past its end. -/
  | outOfBounds

/-- A byte of the buffer that continues a token. -/
def inToken (c : UInt8) : Bool := c != 0 && !isWhite c

/-- `strtok` from the position that the last call remembered: the token, the buffer and the new
position. -/
def strtok (buf : Bytes) (position : Nat) : Option Nat × Bytes × Nat :=
  let start := position + ((buf.drop position).takeWhile isWhite).length
  if buf.getD start 0 = 0 then (none, buf, start)
  else
    let stop := start + ((buf.drop start).takeWhile inToken).length
    if buf.getD stop 0 = 0 then (some start, buf, stop)
    else (some start, buf.set stop 0, stop + 1)

/-- The loop of `buf_args` and the call after it. -/
def argsLoop (buf : Bytes) (position argc : Nat) (argv : Argv) : Result :=
  match strtok buf position with
  | (some ptr, buf, position) =>
    let argc := argc + 1
    if argc ≥ maxargc - 1 then .minusOne
    else if inside : argc < maxargc then
      argsLoop buf position argc (argv.set argc (.pointer ptr) inside)
    else .outOfBounds
  | (none, buf, _) =>
    let argc := argc + 1
    if inside : argc < maxargc then .calls argc (argv.set argc .null inside) buf
    else .outOfBounds
termination_by maxargc - argc
decreasing_by omega

/-- `buf_args`. -/
def bufArgs (buf : Bytes) : Result :=
  match strtok buf 0 with
  | (none, _, _) => .minusOne
  | (some _, buf, position) =>
    argsLoop buf position 0 ((Vector.replicate maxargc .unset).set 0 (.pointer 0))

/-- The string at an offset of the buffer. -/
def stringAt (buf : Bytes) (offset : Nat) : Bytes := (buf.drop offset).takeWhile (· != 0)

/-- The string that a slot of `argv` points to. -/
def argument (argv : Argv) (buf : Bytes) (i : Nat) : Option Bytes :=
  match argv[i]? with
  | some (.pointer offset) => some (stringAt buf offset)
  | _ => none

/-- What `buf_args` is for: nothing is called without tokens or with `MAXARGC` of them, and
otherwise `optfunc` gets the tokens in order and a null pointer after them. -/
structure Tokenises (text : Bytes) (result : Result) : Prop where
  /-- No index is out of bounds. -/
  inBounds : result ≠ .outOfBounds
  /-- It refuses a request without tokens or with too many. -/
  refuses : result = .minusOne ↔ words isWhite text = [] ∨ maxargc ≤ (words isWhite text).length
  /-- `optfunc` is called with the tokens. -/
  tokens : ∀ argc argv buf, result = .calls argc argv buf → argc = (words isWhite text).length ∧
    (∀ i < argc, argument argv buf i = (words isWhite text)[i]?) ∧ argv[argc]? = some .null

/-! ## Strings in the buffer -/

section Strings

variable {buf after text junk word rest : Bytes} {offset position stop : Nat}

/-- A string with its null byte stands at an offset. -/
def Holds (buf : Bytes) (offset : Nat) (word : Bytes) : Prop :=
  ∃ junk, buf.drop offset = word ++ 0 :: junk

/-- The string that stands at an offset. -/
theorem Holds.stringAt (holds : Holds buf offset word) (string : 0 ∉ word) :
    stringAt buf offset = word := by
  obtain ⟨junk, stands⟩ := holds
  rw [InPlace.stringAt, stands, List.takeWhile_append_of_pos, List.takeWhile_cons_of_neg (by simp),
    List.append_nil]
  intro c mem
  simp only [bne_iff_ne, ne_eq]
  intro zero
  exact string (zero ▸ mem)

/-- A null byte that is written after a string leaves it where it is. -/
theorem Holds.set (holds : Holds buf offset word) (behind : offset + word.length < stop) :
    Holds (buf.set stop 0) offset word := by
  obtain ⟨junk, stands⟩ := holds
  obtain ⟨k, rfl⟩ := Nat.exists_eq_add_of_lt behind
  refine ⟨junk.set k 0, ?_⟩
  have inner : offset + word.length + k + 1 - offset - word.length = k + 1 := by omega
  rw [List.drop_set, if_neg (by omega), stands, List.set_append_right _ _ (by omega), inner,
    List.set_cons_succ]

/-- The token of a text and what comes after it. -/
theorem strtok_parts (found : Words.strtok isWhite text = some (word, rest)) :
    ∃ gap, text = text.takeWhile isWhite ++ word ++ gap ∧ word ≠ [] ∧
      (∀ c ∈ word, isWhite c = false) ∧
      (gap = [] ∧ rest = [] ∨ ∃ c, isWhite c = true ∧ gap = c :: rest) := by
  have split := List.takeWhile_append_dropWhile (p := isWhite) (l := text)
  unfold Words.strtok at found
  cases front : text.dropWhile isWhite with
  | nil =>
    rw [front] at found
    cases found
  | cons c tail =>
    have plain : isWhite c = false := not_white_of_dropWhile front
    rw [front] at found split
    obtain ⟨rfl, rfl⟩ := Prod.mk.inj (Option.some.inj found)
    have parts := List.takeWhile_append_dropWhile (p := fun d => !isWhite d) (l := c :: tail)
    refine ⟨(c :: tail).dropWhile fun d => !isWhite d, ?_, ?_, ?_, ?_⟩
    · rw [List.append_assoc, parts, split]
    · rw [List.takeWhile_cons_of_pos (by simp [plain])]
      simp
    · intro d mem
      simpa using List.mem_takeWhile_imp mem
    · cases gap : (c :: tail).dropWhile fun d => !isWhite d with
      | nil => exact Or.inl ⟨rfl, rfl⟩
      | cons d others => exact Or.inr ⟨d, by simpa using not_white_of_dropWhile gap, rfl⟩

/-- The byte at an offset where some bytes stand. -/
theorem getD_of_drop {c : UInt8} (stands : buf.drop offset = c :: junk) :
    buf.getD offset 0 = c := by
  have here : (buf.drop offset)[0]? = some c := by rw [stands, List.getElem?_cons_zero]
  rw [List.getElem?_drop, Nat.add_zero] at here
  rw [List.getD, here, Option.getD_some]

/-- White space ends before the null byte. -/
theorem takeWhile_isWhite_append (text junk : Bytes) :
    (text ++ 0 :: junk).takeWhile isWhite = text.takeWhile isWhite := by
  induction text with
  | nil => rfl
  | cons c text before =>
    rw [List.cons_append, List.takeWhile_cons, List.takeWhile_cons, before]

/-- Without a token `strtok` stops at the end of the text. -/
theorem strtok_eq_none (stands : buf.drop position = text ++ 0 :: junk)
    (none_ : Words.strtok isWhite text = none) :
    strtok buf position = (none, buf, position + text.length) := by
  have white : text.takeWhile isWhite = text := by
    rw [List.takeWhile_eq_self_iff]
    exact words_eq_nil_iff.mp (strtok_none none_)
  have atEnd : buf.drop (position + text.length) = 0 :: junk := by
    rw [← List.drop_drop, stands, List.drop_left]
  have last : buf.getD (position + text.length) 0 = 0 := getD_of_drop atEnd
  unfold strtok
  simp only [stands, takeWhile_isWhite_append, white, last, if_true]

/-- What a call of `strtok` that finds a token leaves behind. -/
structure Cut (buf : Bytes) (position : Nat) (word rest : Bytes) (start : Nat) (after : Bytes)
    (save : Nat) : Prop where
  /-- The token stands at its start. -/
  token : Holds after start word
  /-- Nothing in front of the token changes. -/
  front : after.take start = buf.take start
  /-- The rest of the text is at the remembered position. -/
  remaining : Holds after save rest
  /-- The remembered position is behind the token. -/
  behind : start + word.length ≤ save
  /-- Strings before the position are left where they are. -/
  kept : ∀ offset string, Holds buf offset string → offset + string.length ≤ position →
    Holds after offset string

/-- `strtok` cuts the first token off. -/
theorem strtok_eq_some (stands : buf.drop position = text ++ 0 :: junk) (string : 0 ∉ text)
    (found : Words.strtok isWhite text = some (word, rest)) :
    ∃ after save, strtok buf position =
        (some (position + (text.takeWhile isWhite).length), after, save) ∧
      Cut buf position word rest (position + (text.takeWhile isWhite).length) after save := by
  obtain ⟨gap, parts, nonempty, plain, ending⟩ := strtok_parts found
  generalize leads : (text.takeWhile isWhite).length = lead
  have atStart : buf.drop (position + lead) = word ++ (gap ++ 0 :: junk) := by
    rw [← List.drop_drop, stands, parts, List.append_assoc, List.append_assoc,
      List.drop_left' leads]
  have tokenBytes : ∀ c ∈ word, inToken c = true := by
    intro c mem
    have inText : c ∈ text := by
      rw [parts]
      simp [mem]
    have notZero : c ≠ 0 := fun zero => string (zero ▸ inText)
    simp [inToken, plain c mem, notZero]
  have longer : 0 < word.length := List.length_pos_iff.mpr nonempty
  have begins : buf.getD (position + lead) 0 ≠ 0 := by
    cases word with
    | nil => exact absurd rfl nonempty
    | cons c tail =>
      rw [getD_of_drop atStart]
      have here := tokenBytes c List.mem_cons_self
      simp only [inToken, Bool.and_eq_true, bne_iff_ne] at here
      exact here.1
  have atStop : buf.drop (position + lead + word.length) = gap ++ 0 :: junk := by
    rw [← List.drop_drop, atStart, List.drop_left]
  rcases ending with ⟨rfl, rfl⟩ | ⟨c, white, rfl⟩
  · have whole : ((buf.drop (position + lead)).takeWhile inToken) = word := by
      rw [atStart, List.takeWhile_append_of_pos tokenBytes, List.nil_append,
        List.takeWhile_cons_of_neg (by decide), List.append_nil]
    have ends : buf.getD (position + lead + word.length) 0 = 0 := getD_of_drop atStop
    refine ⟨buf, position + lead + word.length, ?_, ⟨junk, atStart⟩, rfl, ⟨junk, atStop⟩,
      by omega, fun _ _ holds _ => holds⟩
    unfold strtok
    simp only [stands, takeWhile_isWhite_append, leads, begins, whole, ends, if_true, if_false]
  · have outside : inToken c = false := by simp [inToken, white]
    have whole : ((buf.drop (position + lead)).takeWhile inToken) = word := by
      rw [atStart, List.takeWhile_append_of_pos tokenBytes, List.cons_append,
        List.takeWhile_cons_of_neg (by simp [outside]), List.append_nil]
    have separator : buf.getD (position + lead + word.length) 0 ≠ 0 := by
      rw [getD_of_drop atStop]
      intro zero
      refine string ?_
      rw [parts]
      simp [zero]
    refine ⟨buf.set (position + lead + word.length) 0, position + lead + word.length + 1, ?_,
      ⟨rest ++ 0 :: junk, ?_⟩, List.take_set_of_le (by omega), ⟨junk, ?_⟩, by omega, ?_⟩
    · unfold strtok
      simp only [stands, takeWhile_isWhite_append, leads, begins, whole, separator, if_false]
    · rw [List.drop_set, if_neg (by omega), atStart, Nat.add_sub_cancel_left,
        List.set_append_right _ _ (Nat.le_refl _), Nat.sub_self]
      rfl
    · rw [List.drop_set_of_lt (by omega), ← List.drop_drop, atStop]
      rfl
    · intro offset other holds before
      exact holds.set (by omega)

end Strings

/-! ## The arguments -/

section Arguments

variable {buf text junk : Bytes} {position argc : Nat} {argv : Argv}

/-- The loop ends in a call of `optfunc` with these words after the arguments up to `argc`. -/
def CallsWith (buf : Bytes) (position argc : Nat) (argv : Argv) (list : List Bytes)
    (result : Result) : Prop :=
  ∃ argv' after, result = .calls (argc + list.length + 1) argv' after ∧
    (∀ i ≤ argc, argv'[i]? = argv[i]?) ∧
    (∀ i < list.length, argument argv' after (argc + 1 + i) = list[i]?) ∧
    argv'[argc + list.length + 1]? = some .null ∧
    ∀ offset string, Holds buf offset string → offset + string.length ≤ position →
      Holds after offset string

/-- The string of a slot that is a pointer. -/
theorem argument_of_pointer {i offset : Nat} (slot : argv[i]? = some (.pointer offset)) :
    argument argv buf i = some (stringAt buf offset) := by
  rw [argument, slot]

/-- The tokens of a string have no null byte. -/
theorem not_mem_word {word rest : Bytes} (string : 0 ∉ text)
    (found : Words.strtok isWhite text = some (word, rest)) : 0 ∉ word ∧ 0 ∉ rest := by
  obtain ⟨gap, parts, -, -, ending⟩ := strtok_parts found
  rw [parts] at string
  simp only [List.mem_append, not_or] at string
  refine ⟨string.1.2, ?_⟩
  rcases ending with ⟨-, rfl⟩ | ⟨c, -, rfl⟩
  · exact List.not_mem_nil
  · exact fun mem => string.2 (List.mem_cons_of_mem c mem)

/-- The loop with no token left calls `optfunc`. -/
theorem argsLoop_none (room : argc + 1 < maxargc) (stands : buf.drop position = text ++ 0 :: junk)
    (none_ : Words.strtok isWhite text = none) :
    CallsWith buf position argc argv [] (argsLoop buf position argc argv) := by
  refine ⟨argv.set (argc + 1) .null room, buf, ?_, ?_, ?_, ?_, fun _ _ holds _ => holds⟩
  · rw [argsLoop, strtok_eq_none stands none_]
    simp only [dif_pos room, List.length_nil, Nat.add_zero]
  · intro i low
    rw [Vector.getElem?_set_ne room (by omega)]
  · intro i low
    exact absurd low (Nat.not_lt_zero i)
  · exact Vector.getElem?_set_self room

/-- One round of the loop puts a token in front of those that the later rounds find. -/
theorem CallsWith.cons {start save : Nat} {word rest after : Bytes} {list : List Bytes}
    {result : Result} (room : argc + 1 < maxargc) (string : 0 ∉ word)
    (cut : Cut buf position word rest start after save) (later : position ≤ save)
    (calls : CallsWith after save (argc + 1) (argv.set (argc + 1) (.pointer start) room) list
      result) : CallsWith buf position argc argv (word :: list) result := by
  obtain ⟨argv', final, called, same, arguments, last, kept⟩ := calls
  have shift : argc + 1 + list.length + 1 = argc + (word :: list).length + 1 := by
    simp only [List.length_cons]
    omega
  refine ⟨argv', final, shift ▸ called, ?_, ?_, shift ▸ last, ?_⟩
  · intro i low
    rw [same i (by omega), Vector.getElem?_set_ne room (by omega)]
  · intro i low
    cases i with
    | zero =>
      have held := kept start word cut.token cut.behind
      have slot := (same (argc + 1) (Nat.le_refl _)).trans (Vector.getElem?_set_self room)
      rw [Nat.add_zero, argument_of_pointer slot, List.getElem?_cons_zero, held.stringAt string]
    | succ i =>
      rw [List.getElem?_cons_succ, ← arguments i (by simpa using low)]
      congr 1
      omega
  · intro offset other holds before
    exact kept offset other (cut.kept offset other holds before) (by omega)

/-- The loop calls `optfunc` with the tokens of the text, unless there are too many. -/
theorem argsLoop_spec (room : argc + 1 < maxargc)
    (stands : buf.drop position = text ++ 0 :: junk) (string : 0 ∉ text) :
    if argc + (words isWhite text).length + 1 < maxargc then
      CallsWith buf position argc argv (words isWhite text) (argsLoop buf position argc argv)
    else argsLoop buf position argc argv = .minusOne := by
  induction slots : maxargc - argc generalizing buf position argc argv text junk with
  | zero => omega
  | succ slots before =>
    cases found : Words.strtok isWhite text with
    | none =>
      rw [strtok_none found, if_pos (by simpa using room)]
      exact argsLoop_none room stands found
    | some pair =>
      obtain ⟨word, rest⟩ := pair
      obtain ⟨after, save, cuts, cut⟩ := strtok_eq_some stands string found
      obtain ⟨stringW, stringR⟩ := not_mem_word string found
      obtain ⟨junk', remaining⟩ := cut.remaining
      rw [argsLoop, cuts, strtok_some found]
      by_cases full : argc + 1 ≥ maxargc - 1
      · have many : ¬ argc + (word :: words isWhite rest).length + 1 < maxargc := by
          rw [List.length_cons]
          omega
        simp only [if_neg many, if_pos full]
      · simp only [if_neg full, dif_pos room]
        have rounds := @before after rest junk' save (argc + 1) (argv.set (argc + 1)
          (.pointer (position + (text.takeWhile isWhite).length)) room)
          (by omega) remaining stringR (by omega)
        have shift : argc + 1 + (words isWhite rest).length + 1 =
            argc + (word :: words isWhite rest).length + 1 := by
          simp only [List.length_cons]
          omega
        rw [shift] at rounds
        split at rounds
        · rename_i fits
          rw [if_pos fits]
          have behind := cut.behind
          exact rounds.cons room stringW cut (by omega)
        · rename_i many
          rw [if_neg many]
          exact rounds

/-- `argv[0]` is the text up to the end of its first token. -/
theorem Cut.argvZero {word rest after : Bytes} {save : Nat}
    (cut : Cut (text ++ 0 :: junk) 0 word rest (0 + (text.takeWhile isWhite).length) after save) :
    Holds after 0 (text.takeWhile isWhite ++ word) := by
  obtain ⟨tail, stands⟩ := cut.token
  have front := cut.front
  rw [Nat.zero_add] at stands front
  refine ⟨tail, ?_⟩
  have lead : (text ++ 0 :: junk).take (text.takeWhile isWhite).length =
      text.takeWhile isWhite := by
    have atFront : text.takeWhile isWhite <+: text := List.takeWhile_prefix _
    rw [List.take_append_of_le_length atFront.length_le]
    exact (List.prefix_iff_eq_take.mp atFront).symm
  rw [List.drop_zero, ← List.take_append_drop (text.takeWhile isWhite).length after, stands,
    front, lead, List.append_assoc]

/-- The words with the white space in front of the first one, unless there are too many. -/
theorem bufArgs_list (text : Bytes) :
    OpenServer.bufArgs text some =
      match words isWhite text with
      | [] => none
      | first :: tail =>
        if tail.length + 1 < maxargc then some ((text.takeWhile isWhite ++ first) :: tail)
        else none := by
  unfold OpenServer.bufArgs
  cases found : Words.strtok isWhite text with
  | none => simp [strtok_none found]
  | some pair =>
    obtain ⟨word, rest⟩ := pair
    simp only [strtok_some found, argsLoop_eq]
    by_cases few : (words isWhite rest).length ≤ maxargc - 2
    · rw [if_pos few, if_pos (by unfold maxargc at *; omega)]
    · rw [if_neg few, if_neg (by unfold maxargc at *; omega)]

/-- `buf_args` in memory does what the list of the arguments says. -/
theorem bufArgs_refines (string : 0 ∉ text) (junk : Bytes) :
    match OpenServer.bufArgs text some with
    | none => bufArgs (text ++ 0 :: junk) = .minusOne
    | some list => ∃ argv after, bufArgs (text ++ 0 :: junk) = .calls list.length argv after ∧
        (∀ i < list.length, argument argv after i = list[i]?) ∧
        argv[list.length]? = some .null := by
  have stands : (text ++ 0 :: junk).drop 0 = text ++ 0 :: junk := List.drop_zero
  rw [bufArgs_list, bufArgs]
  cases found : Words.strtok isWhite text with
  | none => simp only [strtok_none found, strtok_eq_none stands found]
  | some pair =>
    obtain ⟨word, rest⟩ := pair
    obtain ⟨after, save, cuts, cut⟩ := strtok_eq_some stands string found
    obtain ⟨stringW, stringR⟩ := not_mem_word string found
    obtain ⟨junk', remaining⟩ := cut.remaining
    have first := cut.argvZero
    have rounds := @argsLoop_spec after rest junk' save 0
      ((Vector.replicate maxargc .unset).set 0 (.pointer 0)) (by decide) remaining stringR
    simp only [cuts, strtok_some found]
    rw [Nat.zero_add] at rounds
    split at rounds
    · rename_i few
      obtain ⟨argv', final, called, same, arguments, last, kept⟩ := rounds
      have stringL : 0 ∉ text.takeWhile isWhite ++ word := by
        rw [List.mem_append, not_or]
        exact ⟨fun mem => string (List.takeWhile_sublist _ |>.subset mem), stringW⟩
      have behind := cut.behind
      have held := kept 0 _ first (by rw [List.length_append]; omega)
      have slot := (same 0 (Nat.le_refl _)).trans (Vector.getElem?_set_self (by decide))
      rw [if_pos few]
      refine ⟨argv', final, ?_, ?_, ?_⟩
      · rw [called, Nat.zero_add, List.length_cons]
      · intro i low
        cases i with
        | zero => rw [argument_of_pointer slot, held.stringAt stringL, List.getElem?_cons_zero]
        | succ i =>
          rw [List.getElem?_cons_succ, ← arguments i (by simpa using low)]
          congr 1
          omega
      · rw [List.length_cons]
        simpa using last
    · rename_i many
      rw [if_neg many]
      exact rounds

/-- There is no white space in front exactly when the first byte is not white. -/
theorem takeWhile_eq_nil_iff_head :
    text.takeWhile isWhite = [] ↔ ∀ c, text.head? = some c → isWhite c = false := by
  cases text with
  | nil => simp
  | cons c text => simp [List.takeWhile_cons]

end Arguments

/-- For every request string: `buf_args` calls `optfunc` with its tokens, and refuses it exactly
when it has none or `MAXARGC` of them, if and only if it is refused or does not start with a
separator. -/
theorem buf_args_iff (text junk : Bytes) (string : 0 ∉ text) :
    Tokenises text (bufArgs (text ++ 0 :: junk)) ↔
      words isWhite text = [] ∨ maxargc ≤ (words isWhite text).length ∨
        ∀ c, text.head? = some c → isWhite c = false := by
  have refines := bufArgs_refines string junk
  rw [bufArgs_list] at refines
  cases tokens : words isWhite text with
  | nil =>
    simp only [tokens] at refines
    simp only [true_or, iff_true]
    exact ⟨by simp [refines], by simp [refines, tokens], by simp [refines]⟩
  | cons first tail =>
    simp only [tokens] at refines
    simp only [reduceCtorEq, false_or, List.length_cons]
    by_cases few : tail.length + 1 < maxargc
    · rw [if_pos few] at refines
      obtain ⟨argv, after, called, arguments, last⟩ := refines
      rw [called, or_iff_right (by omega)]
      constructor
      · intro tokenises
        have zero := (tokenises.tokens _ _ _ rfl).2.1 0 (Nat.succ_pos _)
        rw [arguments 0 (Nat.succ_pos _), tokens, List.getElem?_cons_zero,
          List.getElem?_cons_zero, Option.some.injEq, List.append_left_eq_self] at zero
        exact takeWhile_eq_nil_iff_head.mp zero
      · intro plain
        rw [takeWhile_eq_nil_iff_head.mpr plain, List.nil_append] at arguments
        refine ⟨by simp, by simp [tokens, few], ?_⟩
        rintro _ _ _ ⟨⟩
        rw [tokens]
        exact ⟨rfl, arguments, last⟩
    · rw [if_neg few] at refines
      have many : maxargc ≤ tail.length + 1 := by omega
      simp only [many, true_or, iff_true]
      exact ⟨by simp [refines], by simp [refines, tokens, many], by simp [refines]⟩

/-- The request `open f`. -/
def plainRequest : Bytes := [111, 112, 101, 110, 32, 102]

/-- The same request after a blank. -/
def blankRequest : Bytes := 32 :: plainRequest

/-- The tokens of a request that does not start with a separator are passed on. -/
theorem buf_args_plain : words isWhite plainRequest = [[111, 112, 101, 110], [102]] ∧
    Tokenises plainRequest (bufArgs (plainRequest ++ 0 :: [])) := by
  refine ⟨by decide, (buf_args_iff plainRequest [] (by decide)).mpr (Or.inr (Or.inr ?_))⟩
  intro c head
  obtain rfl := Option.some.inj head
  decide

/-- A blank in front of the request stays in `argv[0]`. -/
theorem buf_args_blank : ∃ argv buf, bufArgs (blankRequest ++ [0]) = .calls 2 argv buf ∧
    argument argv buf 0 = some [32, 111, 112, 101, 110] ∧
    words isWhite blankRequest = [[111, 112, 101, 110], [102]] ∧
    ¬ Tokenises blankRequest (bufArgs (blankRequest ++ [0])) := by
  have list : OpenServer.bufArgs blankRequest some = some [[32, 111, 112, 101, 110], [102]] := by
    decide +kernel
  have refines := @bufArgs_refines blankRequest (by decide) []
  rw [list] at refines
  obtain ⟨argv, buf, called, arguments, -⟩ := refines
  have tokens : words isWhite blankRequest = [[111, 112, 101, 110], [102]] := by decide
  have zero := arguments 0 (by decide)
  refine ⟨argv, buf, called, zero, tokens, fun tokenises => ?_⟩
  have right := (tokenises.tokens _ _ _ called).2.1 0 (by decide)
  rw [zero, tokens] at right
  exact absurd right (by decide)

end CodeLearning.OpenServer.InPlace
