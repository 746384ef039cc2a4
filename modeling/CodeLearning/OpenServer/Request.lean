import CodeLearning.Lib.Decimal
import CodeLearning.Lib.Words

/-!
# The request of the open client

`csopen` writes a request as one line of words: `open`, the pathname and the flags in decimal,
with a null byte at the end. `handle_request` splits the line at white space with `strtok`
and takes the second word for the pathname. A pathname with white space inside is refused,
because the request then has too many words; white space before or after the pathname is
lost on the way.
-/

namespace CodeLearning.OpenServer

open Decimal Words

/-- `MAXLINE`, the size of the buffer into which the server reads a request. -/
def maxline : Nat := 4096

/-- `MAXARGC`. -/
def maxargc : Nat := 50

/-- `CL_OPEN`. -/
def clOpen : Bytes := [111, 112, 101, 110]

/-- `WHITE`: blank, tab and newline. -/
def isWhite (c : UInt8) : Bool := c == 32 || c == 9 || c == 10

/-- The request that `csopen` writes with `writev`; `none` when `sprintf` writes the flags
past the end of `buf`, after which nothing is known. -/
def csopen (name : Bytes) (oflag : Int) : Option Bytes :=
  let buf := 32 :: lld oflag
  if buf.length + 1 ≤ 12 then some (clOpen ++ [32] ++ name ++ buf ++ [0]) else none

/-- The loop of `buf_args`, with room for `slots` more words. -/
def argsLoop : Nat → Bytes → Option (List Bytes)
  | slots, text =>
    match strtok isWhite text with
    | none => some []
    | some (ptr, rest) =>
      match slots with
      | 0 => none
      | slots + 1 => (argsLoop slots rest).map fun argv => ptr :: argv

/-- `buf_args`: `argv[0]` is the buffer up to the end of its first word, with the white space
in front of it. -/
def bufArgs {α : Type} (buf : Bytes) (optfunc : List Bytes → Option α) : Option α :=
  match strtok isWhite buf with
  | none => none
  | some (ptr, rest) =>
    match argsLoop (maxargc - 2) rest with
    | none => none
    | some argv => optfunc ((buf.takeWhile isWhite ++ ptr) :: argv)

/-- `cli_args`: the pathname and the flags. -/
def cliArgs : List Bytes → Option (Bytes × Int)
  | [command, pathname, flags] =>
    if command = clOpen then some (pathname, atol flags) else none
  | _ => none

/-- What the server does with a request. -/
inductive Handled where
  /-- The request does not end with a null byte. -/
  | notTerminated
  /-- `buf_args` or `cli_args` refuses it. -/
  | refused
  /-- `open` is called. -/
  | opens (pathname : Bytes) (oflag : Int)
deriving DecidableEq

/-- `handle_request`, up to its call of `open`. -/
def handleRequest (buf : Bytes) : Handled :=
  if buf.getLast? ≠ some 0 then .notTerminated
  else
    match bufArgs (buf.takeWhile (· ≠ 0)) cliArgs with
    | none => .refused
    | some (pathname, oflag) => .opens pathname oflag

/-! ## The words of a request -/

section Decode

variable {name : Bytes} {oflag : Int} {text : Bytes} {slots : Nat}

/-- The loop of `buf_args` finds the words of the text, if there are not too many. -/
theorem argsLoop_eq :
    argsLoop slots text =
      if (words isWhite text).length ≤ slots then some (words isWhite text) else none := by
  induction slots generalizing text with
  | zero =>
    rw [argsLoop.eq_def]
    cases found : strtok isWhite text with
    | none => simp [found, strtok_none found]
    | some pair => simp [found, strtok_some found]
  | succ slots rest =>
    rw [argsLoop.eq_def]
    cases found : strtok isWhite text with
    | none => simp [found, strtok_none found]
    | some pair =>
      obtain ⟨ptr, after_⟩ := pair
      simp only [found, strtok_some found, rest, List.length_cons, Nat.add_le_add_iff_right]
      split
      · rfl
      · rfl

/-- The flags have no white space and no null byte. -/
theorem lld_plain {c : UInt8} (mem : c ∈ lld oflag) : isWhite c = false ∧ c ≠ 0 := by
  rcases mem_lld mem with rfl | digit
  · decide
  · simp only [isDigit, Bool.and_eq_true, decide_eq_true_eq, UInt8.le_iff_toNat_le] at digit
    have low : 48 ≤ c.toNat := digit.1
    constructor
    · simp only [isWhite, Bool.or_eq_false_iff, beq_eq_false_iff_ne, ne_eq]
      refine ⟨⟨?_, ?_⟩, ?_⟩
      · rintro rfl
        exact absurd low (by decide)
      · rintro rfl
        exact absurd low (by decide)
      · rintro rfl
        exact absurd low (by decide)
    · rintro rfl
      exact absurd low (by decide)

/-- The words after `open` are those of the pathname and the flags. -/
theorem words_request :
    words isWhite (name ++ 32 :: lld oflag) = words isWhite name ++ [lld oflag] := by
  rw [words_append (by decide), words_plain (fun c mem => (lld_plain mem).1) (lld_ne_nil oflag)]

/-- The server opens the only word of the pathname, and refuses a pathname with none or with
several. -/
theorem handleRequest_request (noNul : 0 ∉ name) :
    handleRequest (clOpen ++ [32] ++ name ++ (32 :: lld oflag) ++ [0]) =
      match words isWhite name with
      | [word] => .opens word oflag
      | _ => .refused := by
  have text : (clOpen ++ [32] ++ name ++ (32 :: lld oflag) ++ [0]).takeWhile (· ≠ 0) =
      clOpen ++ 32 :: (name ++ 32 :: lld oflag) := by
    rw [List.takeWhile_append_of_pos]
    · simp
    · intro c mem
      simp only [List.mem_append, List.mem_cons, List.not_mem_nil, or_false] at mem
      rw [decide_eq_true_eq]
      rintro rfl
      rcases mem with ((inOpen | isBlank) | inName) | isBlank | inFlags
      · exact absurd inOpen (by decide)
      · exact absurd isBlank (by decide)
      · exact noNul inName
      · exact absurd isBlank (by decide)
      · exact (lld_plain inFlags).2 rfl
  have ends : (clOpen ++ [32] ++ name ++ (32 :: lld oflag) ++ [0]).getLast? = some 0 :=
    List.getLast?_concat
  have first : strtok isWhite (clOpen ++ 32 :: (name ++ 32 :: lld oflag)) =
      some (clOpen, name ++ 32 :: lld oflag) := rfl
  have front : (clOpen ++ 32 :: (name ++ 32 :: lld oflag)).takeWhile isWhite = [] := rfl
  rw [handleRequest, ends, if_neg (by simp), text]
  simp only [bufArgs, first, front, argsLoop_eq, words_request, List.nil_append]
  rcases words isWhite name with _ | ⟨word, _ | ⟨word', others⟩⟩
  · simp [maxargc, cliArgs]
  · simp [maxargc, cliArgs, atol_lld]
  · -- Two words or more: too many for `cli_args`, if not for `buf_args`.
    simp only [List.cons_append]
    by_cases room : (word :: word' :: (others ++ [lld oflag])).length ≤ maxargc - 2
    · rw [if_pos room]
      simp only [cliArgs]
      cases others with
      | nil => rfl
      | cons third others => rfl
    · rw [if_neg room]

/-! ## What the server opens -/

/-- The flags fit the buffer of `csopen` unless they are `-1000000000` or less. -/
theorem flags_fit_iff (low : -2 ^ 31 ≤ oflag) (high : oflag < 2 ^ 31) :
    (32 :: lld oflag).length + 1 ≤ 12 ↔ -1000000000 < oflag := by
  have digits : ∀ n k : Nat, 0 < k → ((decimal n).length ≤ k ↔ n < 10 ^ k) := by
    intro n k positive
    rw [decimal, List.length_map]
    exact Nat.length_toDigits_le_iff (by omega) positive
  unfold lld
  split
  · have nine := digits oflag.natAbs 9 (by omega)
    simp only [List.length_cons]
    omega
  · have ten := digits oflag.natAbs 10 (by omega)
    simp only [List.length_cons]
    omega

/-- The pathname is one word with white space before or after it. -/
def Padded (name : Bytes) : Prop :=
  ∃ before word after_, name = before ++ word ++ after_ ∧ (before ≠ [] ∨ after_ ≠ []) ∧
    (∀ c ∈ before, isWhite c = true) ∧ (∀ c ∈ after_, isWhite c = true) ∧ word ≠ [] ∧
    ∀ c ∈ word, isWhite c = false

/-- The server refuses the request for the pathname and the flags, or opens just these. -/
def Faithful (name : Bytes) (oflag : Int) : Prop :=
  ∃ request, csopen name oflag = some request ∧
    (request.length ≤ maxline →
      handleRequest request = .opens name oflag ∨
        ∀ pathname flags, handleRequest request ≠ .opens pathname flags)

/-- A padded pathname has one word, which is shorter. -/
theorem Padded.words (padded : Padded name) :
    ∃ word, words isWhite name = [word] ∧ word ≠ name := by
  obtain ⟨before, word, after_, rfl, around, whiteBefore, whiteAfter, nonempty, plain⟩ := padded
  refine ⟨word, ?_, ?_⟩
  · exact words_around whiteBefore whiteAfter nonempty plain
  · intro same
    have lengths := congrArg List.length same
    simp only [List.length_append] at lengths
    rcases around with isBefore | isAfter
    · have := List.length_pos_iff.mpr isBefore
      omega
    · have := List.length_pos_iff.mpr isAfter
      omega

/-- The server refuses a request or opens just what was asked for exactly when the flags fit
the buffer of `csopen` and the pathname, unless it is too long, has no white space around its
only word. -/
theorem request_faithful_iff (noNul : 0 ∉ name) (low : -2 ^ 31 ≤ oflag) (high : oflag < 2 ^ 31) :
    Faithful name oflag ↔
      -1000000000 < oflag ∧
        (Padded name → maxline < name.length + (lld oflag).length + 7) := by
  have fits := flags_fit_iff low high
  have handled : handleRequest (clOpen ++ [32] ++ name ++ (32 :: lld oflag) ++ [0]) = _ :=
    handleRequest_request noNul
  have length : (clOpen ++ [32] ++ name ++ (32 :: lld oflag) ++ [0]).length =
      name.length + (lld oflag).length + 7 := by
    simp only [clOpen, List.length_append, List.length_cons, List.length_nil]
    omega
  constructor
  · rintro ⟨request, built, faithful⟩
    dsimp only [csopen] at built
    split at built
    · rename_i room
      obtain rfl := Option.some.inj built
      refine ⟨fits.mp room, fun padded => ?_⟩
      by_contra short
      obtain ⟨word, single, shorter⟩ := padded.words
      rw [handled, single, length] at faithful
      rcases faithful (by omega) with opens | refuses
      · exact shorter (Handled.opens.inj opens).1
      · exact refuses word oflag rfl
    · cases built
  · rintro ⟨flagsFit, unpadded⟩
    refine ⟨_, if_pos (fits.mpr flagsFit), fun room => ?_⟩
    rw [handled]
    rw [length] at room
    rcases isWords : words isWhite name with _ | ⟨word, _ | ⟨word', others⟩⟩
    · exact .inr fun _ _ => by simp
    · obtain ⟨before, after_, parts, whiteBefore, whiteAfter, nonempty, plain⟩ :=
        words_eq_singleton isWords
      left
      -- With white space around the word the request would be too long.
      have bare : before = [] ∧ after_ = [] := by
        by_contra around
        have long := unpadded ⟨before, word, after_, parts, not_and_or.mp around, whiteBefore,
          whiteAfter, nonempty, plain⟩
        omega
      rw [parts, bare.1, bare.2]
      simp
    · exact .inr fun _ _ => by simp

end Decode

/-- The client asks for the file `a` to read, and the server opens it. -/
theorem request_faithful_plain : Faithful [97] 0 :=
  (request_faithful_iff (by decide) (by decide) (by decide)).mpr
    ⟨by decide, fun padded => by
      obtain ⟨word, single, shorter⟩ := padded.words
      exact absurd (List.cons.inj single).1.symm shorter⟩

/-- The client asks for a file whose name is a blank and the letter `a`, and the server opens
the file `a`. -/
theorem request_opens_other_file :
    csopen [32, 97] 0 = some [111, 112, 101, 110, 32, 32, 97, 32, 48, 0] ∧
      handleRequest [111, 112, 101, 110, 32, 32, 97, 32, 48, 0] = .opens [97] 0 ∧
      ¬ Faithful [32, 97] 0 := by
  have built : csopen [32, 97] 0 = some [111, 112, 101, 110, 32, 32, 97, 32, 48, 0] := by decide
  have opens : handleRequest [111, 112, 101, 110, 32, 32, 97, 32, 48, 0] = .opens [97] 0 := by
    decide
  refine ⟨built, opens, ?_⟩
  rintro ⟨request, isBuilt, faithful⟩
  obtain rfl := Option.some.inj (built.symm.trans isBuilt)
  rw [opens] at faithful
  rcases faithful (by decide) with same | refuses
  · exact absurd same (by decide)
  · exact refuses [97] 0 rfl

end CodeLearning.OpenServer
