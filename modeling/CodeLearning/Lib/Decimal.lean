import CodeLearning.Lib.ByteFile
import Mathlib.Data.List.TakeWhile
import Mathlib.Tactic.IntervalCases

/-!
# Decimal text

Numbers as C writes and reads them in text: `decimal` and `lld` are `%ld` and `%lld`,
`padLeft` is the field width of `%*lld`, and `atol` is `atol` and `atoi` on text whose value
fits the result. A padded number reads back.
-/

namespace CodeLearning

namespace Decimal

/-- `' '`. -/
def space : UInt8 := 32

/-- `isspace` of the C locale. -/
def isSpace (c : UInt8) : Bool := c == 32 || (9 ≤ c && c ≤ 13)

/-- `isdigit`. -/
def isDigit (c : UInt8) : Bool := 48 ≤ c && c ≤ 57

/-- A natural number in decimal. -/
def decimal (n : Nat) : Bytes := (Nat.toDigits 10 n).map fun c => UInt8.ofNat c.toNat

/-- `%lld`. -/
def lld (n : Int) : Bytes := if n < 0 then 45 :: decimal n.natAbs else decimal n.natAbs

/-- Blanks before the text, up to the width. -/
def padLeft (width : Nat) (text : Bytes) : Bytes :=
  List.replicate (width - text.length) space ++ text

/-- One digit read. -/
def shiftDigit (value : Nat) (c : UInt8) : Nat := 10 * value + (c.toNat - 48)

/-- Value of the digits at the front of the text. -/
def digitsValue (text : Bytes) : Nat := (text.takeWhile isDigit).foldl shiftDigit 0

/-- `atol`: blanks, a sign, digits; what follows the digits is not read. -/
def atol (text : Bytes) : Int :=
  match text.dropWhile isSpace with
  | [] => 0
  | c :: rest =>
    if c = 45 then -(digitsValue rest : Int)
    else if c = 43 then digitsValue rest
    else digitsValue (c :: rest)

/-- The last digit of a number comes off its end. -/
theorem decimal_eq (n : Nat) :
    decimal n = (if n < 10 then [] else decimal (n / 10)) ++ [UInt8.ofNat (48 + n % 10)] := by
  have digit : ∀ d < 10, UInt8.ofNat (Nat.digitChar d).toNat = UInt8.ofNat (48 + d) := by
    intro d small
    interval_cases d <;> rfl
  unfold decimal
  rw [Nat.toDigits_eq_if (by omega)]
  split
  · rename_i small
    have same : n % 10 = n := Nat.mod_eq_of_lt small
    simp [digit n small, same]
  · simp [digit (n % 10) (Nat.mod_lt _ (by omega))]

/-- A number is written with at least one digit. -/
theorem decimal_ne_nil (n : Nat) : decimal n ≠ [] := by
  rw [decimal_eq]
  simp

/-- The value of a digit. -/
theorem toNat_digit (n : Nat) : (UInt8.ofNat (48 + n % 10)).toNat = 48 + n % 10 := by
  rw [UInt8.toNat_ofNat']
  apply Nat.mod_eq_of_lt
  omega

/-- A number is written in digits only. -/
theorem isDigit_of_mem_decimal {n : Nat} {c : UInt8} (mem : c ∈ decimal n) :
    isDigit c = true := by
  induction n using Nat.strongRecOn with
  | ind n smaller =>
    rw [decimal_eq, List.mem_append] at mem
    rcases mem with before | last
    · split at before
      · cases before
      · exact smaller (n / 10) (by omega) before
    · have value := toNat_digit n
      rw [List.mem_singleton] at last
      rw [← last] at value
      simp only [isDigit, Bool.and_eq_true, decide_eq_true_eq, UInt8.le_iff_toNat_le, value]
      constructor
      · show 48 ≤ _
        omega
      · show _ ≤ 57
        omega

/-- A byte that is no digit is not in the text of a number. -/
theorem not_mem_decimal {c : UInt8} (other : isDigit c = false) (n : Nat) : c ∉ decimal n := by
  intro mem
  rw [isDigit_of_mem_decimal mem] at other
  cases other

/-- Reading the digits of a number gives the number. -/
theorem foldl_decimal (n : Nat) : (decimal n).foldl shiftDigit 0 = n := by
  induction n using Nat.strongRecOn with
  | ind n smaller =>
    rw [decimal_eq, List.foldl_append]
    simp only [List.foldl_cons, List.foldl_nil, shiftDigit, toNat_digit]
    split
    · simp only [List.foldl_nil]
      omega
    · rw [smaller (n / 10) (by omega)]
      omega

/-- The digits of a number have its value. -/
theorem digitsValue_decimal (n : Nat) : digitsValue (decimal n) = n := by
  have all : (decimal n).takeWhile isDigit = decimal n := by
    rw [List.takeWhile_eq_self_iff]
    exact fun c mem => isDigit_of_mem_decimal mem
  rw [digitsValue, all, foldl_decimal]

/-- A number reads back, with any blanks before it. -/
theorem atol_padLeft (width n : Nat) : atol (padLeft width (decimal n)) = n := by
  have blanks : ∀ k, (List.replicate k space ++ decimal n).dropWhile isSpace = decimal n := by
    intro k
    induction k with
    | zero =>
      cases text : decimal n with
      | nil => rfl
      | cons c rest =>
        have digit : isDigit c = true := isDigit_of_mem_decimal (text ▸ List.mem_cons_self)
        have noSpace : isSpace c = false := by
          simp only [isDigit, Bool.and_eq_true, decide_eq_true_eq, UInt8.le_iff_toNat_le] at digit
          simp only [isSpace, Bool.or_eq_false_iff, beq_eq_false_iff_ne, ne_eq,
            Bool.and_eq_false_iff, decide_eq_false_iff_not, UInt8.le_iff_toNat_le]
          have low : 48 ≤ c.toNat := digit.1
          constructor
          · intro eq
            rw [eq] at low
            exact absurd low (by decide)
          · right
            show ¬ c.toNat ≤ 13
            omega
        simp [noSpace]
    | succ k rest =>
      rw [List.replicate_succ, List.cons_append, List.dropWhile_cons_of_pos (by rfl), rest]
  have value := digitsValue_decimal n
  rw [atol, padLeft, blanks]
  cases text : decimal n with
  | nil => exact absurd text (decimal_ne_nil n)
  | cons c rest =>
    have digit : isDigit c = true := isDigit_of_mem_decimal (text ▸ List.mem_cons_self)
    have noMinus : c ≠ 45 := by
      rintro rfl
      cases digit
    have noPlus : c ≠ 43 := by
      rintro rfl
      cases digit
    rw [text] at value
    simp only [noMinus, noPlus, if_false, value]

/-- A number reads back. -/
theorem atol_decimal (n : Nat) : atol (decimal n) = n := by
  have plain := atol_padLeft 0 n
  simpa [padLeft] using plain

/-- A number that is not negative is written as a natural number. -/
@[simp]
theorem lld_ofNat (n : Nat) : lld (n : Int) = decimal n := by
  simp [lld]

/-- A number with its sign reads back. -/
theorem atol_lld (n : Int) : atol (lld n) = n := by
  unfold lld
  split
  · rename_i negative
    have noSpace : isSpace 45 = false := by decide
    rw [atol, List.dropWhile_cons_of_neg (by simp [noSpace])]
    simp only [if_true, digitsValue_decimal]
    omega
  · rw [atol_decimal]
    omega

/-- A number with its sign is not written as empty text. -/
theorem lld_ne_nil (n : Int) : lld n ≠ [] := by
  unfold lld
  split
  · simp
  · exact decimal_ne_nil _

/-- A number with its sign is written in digits after the sign. -/
theorem mem_lld {n : Int} {c : UInt8} (mem : c ∈ lld n) : c = 45 ∨ isDigit c = true := by
  unfold lld at mem
  split at mem
  · rcases List.mem_cons.mp mem with sign | digit
    · exact .inl sign
    · exact .inr (isDigit_of_mem_decimal digit)
  · exact .inr (isDigit_of_mem_decimal mem)

/-- A number below `10 ^ width` fits the width. -/
theorem length_decimal_le {n width : Nat} (positive : 0 < width) (small : n < 10 ^ width) :
    (decimal n).length ≤ width := by
  rw [decimal, List.length_map, Nat.length_toDigits_le_iff (by omega) positive]
  exact small

/-- Text no longer than the width is padded to the width. -/
theorem length_padLeft {width : Nat} {text : Bytes} (fits : text.length ≤ width) :
    (padLeft width text).length = width := by
  simp [padLeft]
  omega

example : padLeft 4 (decimal 17) = [32, 32, 49, 55] := by decide

end Decimal

end CodeLearning
