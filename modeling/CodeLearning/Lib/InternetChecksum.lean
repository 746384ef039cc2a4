import Mathlib.Data.Nat.ModEq

/-!
# The Internet checksum

The checksum of some bytes is made of the ones' complement sum of their 16-bit words, with a zero
byte after an odd number of them. Data with its checksum verifies when the sum of its words, all
carries added back, is `0xFFFF`. Whether it does is the same in both byte orders, because a word
with its bytes exchanged is the word times 256, up to multiples of `0xFFFF`.
-/

namespace CodeLearning.InternetChecksum

/-- How the bytes of a word are ordered. -/
inductive Endian where
  /-- The low byte is first. -/
  | little
  /-- The high byte is first, as on the network. -/
  | big
deriving DecidableEq

/-- The value of two bytes as a word. -/
def word : Endian → UInt8 → UInt8 → Nat
  | .little, first, second => first.toNat + 256 * second.toNat
  | .big, first, second => 256 * first.toNat + second.toNat

/-- The bytes of a word. -/
def wordBytes : Endian → Nat → List UInt8
  | .little, value => [UInt8.ofNat value, UInt8.ofNat (value / 256)]
  | .big, value => [UInt8.ofNat (value / 256), UInt8.ofNat value]

/-- The sum of the words of some bytes. -/
def sumWords (e : Endian) : List UInt8 → Nat
  | [] => 0
  | [last] => word e last 0
  | first :: second :: rest => word e first second + sumWords e rest

/-- All carries are added back. -/
def foldCarries (sum : Nat) : Nat :=
  if sum < 0x10000 then sum else foldCarries (sum % 0x10000 + sum / 0x10000)
termination_by sum
decreasing_by omega

/-- The bytes verify: the folded sum of their words in network order is `0xFFFF`. -/
def Verifies (bytes : List UInt8) : Prop := foldCarries (sumWords .big bytes) = 0xFFFF

variable {e : Endian} {bytes left right : List UInt8} {sum value : Nat}

/-- The folded sum is `0xFFFF` exactly for the positive multiples of `0xFFFF`. -/
theorem foldCarries_eq_iff (sum : Nat) :
    foldCarries sum = 0xFFFF ↔ 0 < sum ∧ sum % 0xFFFF = 0 := by
  induction sum using Nat.strong_induction_on with
  | _ sum before =>
    rw [foldCarries]
    by_cases small : sum < 0x10000
    · rw [if_pos small]
      omega
    · rw [if_neg small, before _ (by omega)]
      omega

/-- A word has two bytes. -/
theorem length_wordBytes (e : Endian) (value : Nat) : (wordBytes e value).length = 2 := by
  cases e <;> rfl

/-- The bytes of a word have its value. -/
theorem word_wordBytes (e : Endian) (small : value ≤ 0xFFFF) :
    sumWords e (wordBytes e value) = value := by
  cases e <;>
    simp only [wordBytes, sumWords, word, UInt8.toNat_ofNat', Nat.reducePow] <;> omega

/-- The words of bytes after an even number of bytes. -/
theorem sumWords_append (even : left.length % 2 = 0) :
    sumWords e (left ++ right) = sumWords e left + sumWords e right := by
  induction left using sumWords.induct with
  | case1 => simp [sumWords]
  | case2 last => simp at even
  | case3 first second rest before =>
    simp only [List.length_cons] at even
    rw [List.cons_append, List.cons_append, sumWords, sumWords, before (by omega), Nat.add_assoc]

/-- The words in network order are the little-endian ones times 256, up to multiples of
`0xFFFF`. -/
theorem sumWords_big (bytes : List UInt8) :
    sumWords .big bytes % 0xFFFF = 256 * sumWords .little bytes % 0xFFFF := by
  induction bytes using sumWords.induct with
  | case1 => rfl
  | case2 last =>
    simp only [sumWords, word, UInt8.toNat_zero]
    omega
  | case3 first second rest before =>
    simp only [sumWords, word]
    omega

/-- A sum of words is zero in both byte orders or in none. -/
theorem sumWords_pos (bytes : List UInt8) :
    0 < sumWords .big bytes ↔ 0 < sumWords .little bytes := by
  induction bytes using sumWords.induct with
  | case1 => rfl
  | case2 last =>
    simp only [sumWords, word, UInt8.toNat_zero]
    omega
  | case3 first second rest before =>
    simp only [sumWords, word]
    omega

/-- Whether bytes verify can be told from the words in either byte order. -/
theorem verifies_iff (e : Endian) (bytes : List UInt8) :
    Verifies bytes ↔ 0 < sumWords e bytes ∧ sumWords e bytes % 0xFFFF = 0 := by
  rw [Verifies, foldCarries_eq_iff]
  cases e with
  | big => exact Iff.rfl
  | little =>
    rw [sumWords_pos, sumWords_big]
    omega

/-- Whether bytes verify can be decided. -/
instance (bytes : List UInt8) : Decidable (Verifies bytes) :=
  decidable_of_iff _ (verifies_iff .big bytes).symm

end CodeLearning.InternetChecksum
