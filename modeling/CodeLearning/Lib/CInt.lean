import Mathlib.Algebra.Group.Int.Defs
import Mathlib.Algebra.Group.Nat.Defs

/-!
# The type `int`

An `int` has 32 bits. The result of signed arithmetic that leaves its range is not defined, while a
length of type `size_t` that is stored in an `int` keeps its low bits.
-/

namespace CodeLearning.CInt

/-- The greatest `int`. -/
def intMax : Nat := 2 ^ 31 - 1

/-- A value of type `int`. -/
def IsInt (v : Int) : Prop := -2 ^ 31 ≤ v ∧ v ≤ intMax

/-- It can be decided whether a number is an `int`. -/
instance IsInt.decidable (v : Int) : Decidable (IsInt v) := inferInstanceAs (Decidable (_ ∧ _))

/-- The result of an operation on `int`; `none` when it overflows. -/
def checked (v : Int) : Option Int := if IsInt v then some v else none

/-- The result of an operation on `int` that is not negative; `none` when it overflows. -/
def checkedNat (n : Nat) : Option Nat := if n ≤ intMax then some n else none

/-- The `int` with the same low bits. -/
def wrap (v : Int) : Int := v.bmod (2 ^ 32)

/-- A `size_t` that is stored in an `int`. -/
def ofSize (n : Nat) : Int := wrap n

variable {n : Nat} {v : Int}

/-- An operation whose result is an `int` has it. -/
theorem checked_eq (int : IsInt v) : checked v = some v := if_pos int

/-- An operation that overflows has no result. -/
theorem checked_eq_none (overflows : ¬ IsInt v) : checked v = none := if_neg overflows

/-- An operation whose result is at most the greatest `int` has it. -/
theorem checkedNat_eq (fits : n ≤ intMax) : checkedNat n = some n := if_pos fits

/-- An operation whose result is above the greatest `int` has none. -/
theorem checkedNat_eq_none (exceeds : intMax < n) : checkedNat n = none :=
  if_neg (Nat.not_le.mpr exceeds)

/-- An `int` is itself. -/
theorem wrap_eq (int : IsInt v) : wrap v = v := by
  obtain ⟨low, high⟩ := int
  unfold intMax at high
  unfold wrap
  exact Int.bmod_eq_of_le (by omega) (by omega)

/-- A number is at most the greatest `int` once it is wrapped. -/
theorem wrap_lt (v : Int) : wrap v < 2 ^ 31 := Int.bmod_lt (by decide)

/-- A length that is an `int` is stored as it is. -/
theorem ofSize_eq (fits : n ≤ intMax) : ofSize n = n := wrap_eq ⟨by omega, Int.ofNat_le.mpr fits⟩

/-- A length above the greatest `int` is stored as another number. -/
theorem ofSize_lt (exceeds : intMax < n) : ofSize n < n := by
  have above : 2 ^ 31 ≤ n := exceeds
  have stored : ofSize n < 2 ^ 31 := wrap_lt n
  omega

end CodeLearning.CInt
