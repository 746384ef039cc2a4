import Mathlib.Data.Int.ModEq
import Mathlib.Data.Nat.Prime.Int
import Mathlib.Data.Finset.Card
import Mathlib.Tactic.Ring

/-!
# Quadratic probing

The probes of a start position in a table of size `p` are `start + i ^ 2` modulo `p`. For a prime
`p` the probes up to `(p - 1) / 2` are distinct, and every later probe is one of them again. The
squares are computed by their differences, and one conditional subtraction is enough for the
remainder as long as the difference is not above `p`.
-/

namespace CodeLearning.QuadraticProbe

variable {p start i j n : Nat}

/-- The position of probe `i`. -/
def probe (p start i : Nat) : Nat := (start + i ^ 2) % p

/-- The first probe is the start. -/
theorem probe_zero (inside : start < p) : probe p start 0 = start := by
  simp [probe, Nat.mod_eq_of_lt inside]

/-- A probe is a position of the table. -/
theorem probe_lt (inside : start < p) : probe p start i < p :=
  Nat.mod_lt _ (Nat.zero_lt_of_lt inside)

/-- The next probe is an odd number further on. -/
theorem probe_succ (p start i : Nat) :
    probe p start (i + 1) = (probe p start i + (2 * (i + 1) - 1)) % p := by
  have square : start + (i + 1) ^ 2 = start + i ^ 2 + (2 * (i + 1) - 1) := by
    have expand : (i + 1) ^ 2 = i ^ 2 + 2 * i + 1 := by ring
    omega
  rw [probe, probe, square, Nat.mod_add_mod]

/-- One conditional subtraction is enough for the remainder. -/
theorem sub_once (below : n < 2 * p) : n % p = if p ≤ n then n - p else n := by
  by_cases high : p ≤ n
  · rw [if_pos high, Nat.mod_eq_sub_mod high, Nat.mod_eq_of_lt (by omega)]
  · rw [if_neg high, Nat.mod_eq_of_lt (by omega)]

/-- The probes of the first half are distinct. -/
theorem probe_injective (prime : p.Prime) (lowI : i ≤ (p - 1) / 2) (lowJ : j ≤ (p - 1) / 2)
    (same : probe p start i = probe p start j) : i = j := by
  have divides : (p : Int) ∣ ((j : Int) - i) * (j + i) := by
    have difference := (Nat.modEq_iff_dvd (n := p)).mp same
    push_cast at difference
    convert difference using 1
    ring
  have positive := prime.pos
  rcases (Nat.prime_iff_prime_int.mp prime).dvd_or_dvd divides with minus | plus
  · have zero : (j : Int) - i = 0 := Int.eq_zero_of_abs_lt_dvd minus (by rw [abs_lt]; omega)
    omega
  · have zero : (j : Int) + i = 0 := Int.eq_zero_of_abs_lt_dvd plus (by rw [abs_lt]; omega)
    omega

/-- Every probe is one of the first half. -/
theorem probe_reduce (odd : p % 2 = 1) (start n : Nat) :
    ∃ m ≤ (p - 1) / 2, probe p start n = probe p start m := by
  have bound : n % p < p := Nat.mod_lt n (by omega)
  have reduced : (n % p) ^ 2 ≡ n ^ 2 [MOD p] := (Nat.mod_modEq n p).pow 2
  by_cases low : n % p ≤ (p - 1) / 2
  · exact ⟨n % p, low, (reduced.add_left start).symm⟩
  · -- A number and what is left of it up to `p` have the same square.
    have mirrored : (p - n % p) ^ 2 ≡ (n % p) ^ 2 [MOD p] := by
      refine (Nat.modEq_iff_dvd).mpr ⟨2 * (n % p : Nat) - p, ?_⟩
      push_cast [Nat.cast_sub (Nat.le_of_lt bound)]
      ring
    exact ⟨p - n % p, by omega, ((mirrored.trans reduced).add_left start).symm⟩

/-- A set with less positions than the first half has probes leaves one of them free. -/
theorem exists_probe_notMem (prime : p.Prime) (start : Nat) {used : Finset Nat}
    (few : used.card ≤ (p - 1) / 2) : ∃ i ≤ (p - 1) / 2, probe p start i ∉ used := by
  by_contra all
  push Not at all
  have subset : (Finset.range ((p - 1) / 2 + 1)).image (probe p start) ⊆ used := by
    intro position mem
    obtain ⟨i, low, rfl⟩ := Finset.mem_image.mp mem
    exact all i (Nat.lt_succ_iff.mp (Finset.mem_range.mp low))
  have count := Finset.card_le_card subset
  rw [Finset.card_image_of_injOn, Finset.card_range] at count
  · omega
  · intro i lowI j lowJ same
    exact probe_injective prime (Nat.lt_succ_iff.mp (Finset.mem_range.mp lowI))
      (Nat.lt_succ_iff.mp (Finset.mem_range.mp lowJ)) same

end CodeLearning.QuadraticProbe
