import CodeLearning.Tun.Packet
import Mathlib.Algebra.BigOperators.Group.List.Basic

/-!
# The checksum of a buffer

`in_checksum` adds the carries of the sum of the words back once, where the Internet checksum adds
them back until none is left. The two differ for the sums whose low 16 bits and carries carry
again; there the assertion after the fold fails.
-/

namespace CodeLearning.Tun

open InternetChecksum

/-- The bytes of a list of words. -/
def bytesOf : List (UInt8 × UInt8) → List UInt8
  | [] => []
  | (first, second) :: rest => first :: second :: bytesOf rest

/-- The low 16 bits of the sum of the words and its carries carry again. -/
def CarriesAgain (e : Endian) (buf : List UInt8) : Prop :=
  0x10000 ≤ sumWords e buf % 0x10000 + sumWords e buf / 0x10000

/-- `in_checksum` of a buffer is its Internet checksum. -/
structure ComputesChecksum (e : Endian) (buf : List UInt8) : Prop where
  /-- The sum stays an `int`. -/
  noOverflow : sumWords e buf < 2 ^ 31
  /-- No assertion fails, and the value is the complement of the sum with all carries added. -/
  returned : inChecksum e buf = some (0xFFFF - foldCarries (sumWords e buf))
  /-- A buffer whose checksum field is zero verifies to zero when the field is filled. -/
  filled : ∀ left right, left.length % 2 = 0 → buf = left ++ [0, 0] ++ right →
    ∀ check, inChecksum e buf = some check →
      inChecksum e (left ++ wordBytes e check ++ right) = some 0
  /-- The order of the words does not matter. -/
  permuted : ∀ words others : List (UInt8 × UInt8), buf = bytesOf words → others.Perm words →
    inChecksum e (bytesOf others) = inChecksum e buf

section Sums

variable {e : Endian} {buf left right : List UInt8} {sum check : Nat}

/-- A word has 16 bits. -/
theorem word_le (e : Endian) (first second : UInt8) : word e first second ≤ 0xFFFF := by
  have low := first.toNat_lt
  have high := second.toNat_lt
  cases e <;> simp only [word] <;> omega

/-- The sum of the words of a buffer is bounded by their number. -/
theorem sumWords_le (e : Endian) (buf : List UInt8) :
    sumWords e buf ≤ 0xFFFF * ((buf.length + 1) / 2) := by
  induction buf using sumWords.induct with
  | case1 => simp [sumWords]
  | case2 last =>
    have small := word_le e last 0
    simp only [sumWords, List.length_singleton]
    omega
  | case3 first second rest before =>
    have small := word_le e first second
    simp only [sumWords, List.length_cons]
    omega

/-- The bytes of words are two for each. -/
theorem length_bytesOf (words : List (UInt8 × UInt8)) :
    (bytesOf words).length = 2 * words.length := by
  induction words with
  | nil => rfl
  | cons pair rest before =>
    simp only [bytesOf, List.length_cons, before]
    omega

/-- The sum of the words of a buffer that is given by them. -/
theorem sumWords_bytesOf (e : Endian) (words : List (UInt8 × UInt8)) :
    sumWords e (bytesOf words) = (words.map fun pair => word e pair.1 pair.2).sum := by
  induction words with
  | nil => rfl
  | cons pair rest before =>
    rw [bytesOf, sumWords, before, List.map_cons, List.sum_cons]

/-- Without a second carry one fold adds all carries. -/
theorem foldCarries_of_once (once : sum % 0x10000 + sum / 0x10000 < 0x10000) :
    foldCarries sum = foldOnce sum := by
  rw [foldCarries, foldOnce]
  by_cases small : sum < 0x10000
  · rw [if_pos small]
    omega
  · rw [if_neg small, foldCarries, if_pos once]

/-- A sum and the complement of its fold give a sum that folds to `0xFFFF`. -/
theorem foldOnce_complement (once : sum % 0x10000 + sum / 0x10000 < 0x10000) :
    foldOnce (sum + (0xFFFF - foldOnce sum)) = 0xFFFF := by
  unfold foldOnce
  have split : sum + (0xFFFF - (sum % 0x10000 + sum / 0x10000)) =
      0x10000 * (sum / 0x10000) + (0xFFFF - sum / 0x10000) := by omega
  rw [split]
  omega

/-- `in_checksum` of an even number of bytes that do not carry again. -/
theorem inChecksum_of_once (even : buf.length % 2 = 0) (once : ¬ CarriesAgain e buf) :
    inChecksum e buf = some (0xFFFF - foldOnce (sumWords e buf)) := by
  rw [inChecksum_even even, if_pos]
  unfold CarriesAgain at once
  unfold foldOnce
  omega

/-- The assertion fails for an even number of bytes that carry again. -/
theorem inChecksum_of_again (even : buf.length % 2 = 0) (again : CarriesAgain e buf) :
    inChecksum e buf = none := by
  rw [inChecksum_even even, if_neg]
  unfold CarriesAgain at again
  unfold foldOnce
  omega

/-- A zero field that is filled with the checksum. -/
theorem inChecksum_filled (evenL : left.length % 2 = 0) (even : buf.length % 2 = 0)
    (field : buf = left ++ [0, 0] ++ right) (once : ¬ CarriesAgain e buf)
    (returned : inChecksum e buf = some check) :
    inChecksum e (left ++ wordBytes e check ++ right) = some 0 := by
  rw [inChecksum_of_once even once, Option.some.injEq] at returned
  have small : check ≤ 0xFFFF := by omega
  have zero : sumWords e [0, 0] = 0 := by cases e <;> rfl
  have before : sumWords e buf = sumWords e left + sumWords e right := by
    rw [field, List.append_assoc, sumWords_append evenL, sumWords_append rfl, zero, Nat.zero_add]
  have after : sumWords e (left ++ wordBytes e check ++ right) = sumWords e buf + check := by
    rw [List.append_assoc, sumWords_append evenL,
      sumWords_append (by rw [length_wordBytes]), word_wordBytes e small, before]
    omega
  have evenF : (left ++ wordBytes e check ++ right).length % 2 = 0 := by
    rw [field] at even
    simp only [List.length_append, length_wordBytes, List.length_cons, List.length_nil] at even ⊢
    omega
  have full : foldOnce (sumWords e (left ++ wordBytes e check ++ right)) = 0xFFFF := by
    rw [after, ← returned]
    refine foldOnce_complement ?_
    unfold CarriesAgain at once
    omega
  rw [inChecksum_even evenF, full]
  rfl

/-- The words in another order have the same checksum. -/
theorem inChecksum_perm {words others : List (UInt8 × UInt8)} (same : others.Perm words) :
    inChecksum e (bytesOf others) = inChecksum e (bytesOf words) := by
  have sums : sumWords e (bytesOf others) = sumWords e (bytesOf words) := by
    rw [sumWords_bytesOf, sumWords_bytesOf]
    exact (same.map _).sum_eq
  have lengths : (bytesOf others).length = (bytesOf words).length := by
    rw [length_bytesOf, length_bytesOf, same.length_eq]
  rw [inChecksum, inChecksum, sums, lengths]

end Sums

/-- For a buffer of an even number of bytes, at most `ETH_FRAME_LEN`: `in_checksum` returns the
Internet checksum, which verifies to zero once it is filled in and does not depend on the order of
the words, exactly when the sum of the words does not carry again. -/
theorem in_checksum_iff (e : Endian) (buf : Packet) (even : buf.val.length % 2 = 0) :
    ComputesChecksum e buf.val ↔ ¬ CarriesAgain e buf.val := by
  constructor
  · intro computes again
    have returned := computes.returned
    rw [inChecksum_of_again even again] at returned
    cases returned
  · intro once
    have short := buf.property
    have bounded := sumWords_le e buf.val
    refine ⟨?_, ?_, ?_, ?_⟩
    · unfold ethFrameLen at short
      omega
    · rw [inChecksum_of_once even once, foldCarries_of_once]
      unfold CarriesAgain at once
      omega
    · intro left right evenL field check returned
      exact inChecksum_filled evenL even field once returned
    · intro words others given same
      rw [given]
      exact inChecksum_perm same

/-- Two words whose sum carries once. -/
def carryOnce : Packet := ⟨[255, 255, 2, 0], by decide⟩

/-- Three words with the sum `0x1FFFF`. -/
def carryAgain : Packet := ⟨[255, 255, 255, 255, 1, 0], by decide⟩

/-- A sum that carries once has its checksum. -/
theorem in_checksum_once : ¬ CarriesAgain .little carryOnce.val ∧
    ComputesChecksum .little carryOnce.val := by
  have once : ¬ CarriesAgain .little carryOnce.val := by
    unfold CarriesAgain
    decide +kernel
  exact ⟨once, (in_checksum_iff .little carryOnce (by decide)).mpr once⟩

/-- For a sum that carries again, the assertion of `in_checksum` fails. -/
theorem in_checksum_aborts : carryAgain.val.length = 6 ∧ inChecksum .little carryAgain.val = none ∧
    ¬ ComputesChecksum .little carryAgain.val := by
  have aborted : inChecksum .little carryAgain.val = none := by decide +kernel
  refine ⟨rfl, aborted, fun computes => ?_⟩
  have returned := computes.returned
  rw [aborted] at returned
  cases returned

end CodeLearning.Tun
