import CodeLearning.Lib.CInt
import Mathlib.Data.Set.Basic

/-!
# Random numbers of a range

`crandom` forms a number from coin flips, bit by bit, until it has reached `b`, and returns the
number before the last flip when that exceeds `a`. Otherwise it goes on with the number that it has.
So `a` is never returned, small numbers of the range are not returned, and numbers above `b` are.
-/

namespace CodeLearning.CRandom

open CInt

/-! ## Coins -/

/-- `biase_random`, with the results of `rand` one after the other. -/
def biaseRandom (rand : Nat → Nat) (n : Nat) : Nat := rand n % 2

/-- `random01`, from a place in the results of `rand` on; so many rounds. -/
def random01 (rand : Nat → Nat) : Nat → Nat → Option (Nat × Nat)
  | 0, _ => none
  | rounds + 1, n =>
    let x := biaseRandom rand n
    let y := biaseRandom rand (n + 1)
    if x ≠ y then some (x, n + 2) else random01 rand rounds (n + 2)

/-- The calls of `random01` return these flips one after the other. -/
def Delivers (rand flips : Nat → Nat) : Prop :=
  ∃ place : Nat → Nat, place 0 = 0 ∧
    ∀ k, ∃ rounds, random01 rand rounds (place k) = some (flips k, place (k + 1))

/-- How a call of `crandom` goes on. -/
inductive Outcome where
  /-- It returns a number. -/
  | returns (value : Int)
  /-- It prints a range error and exits. -/
  | rangeError
  /-- `cur` overflows. -/
  | overflow
  /-- It has not ended after so many flips. -/
  | unfinished
deriving DecidableEq

/-- The loops of `crandom`, with the number of the next flip and `cur`. Both loops begin with the
same assignments. -/
def crandomLoop (flips : Nat → Nat) (a b : Int) : Nat → Nat → Nat → Outcome
  | 0, _, _ => .unfinished
  | fuel + 1, k, cur =>
    let tmp := cur
    let cur := 2 * cur + flips k
    if intMax < cur then .overflow
    else if (cur : Int) < b then crandomLoop flips a b fuel (k + 1) cur
    else if (tmp : Int) > a then .returns tmp
    else crandomLoop flips a b fuel (k + 1) cur

/-- `crandom`. -/
def crandom (flips : Nat → Nat) (a b : Int) (fuel : Nat) : Outcome :=
  if a > b then .rangeError else crandomLoop flips a b fuel 0 0

/-- The numbers that `crandom` can return. -/
def Returnable (a b : Int) : Set Int :=
  { v | ∃ rand flips fuel, Delivers rand flips ∧ crandom flips a b fuel = .returns v }

/-- A call of `random01` returns 0 or 1. -/
theorem random01_lt_two {rand : Nat → Nat} {rounds n x m : Nat}
    (returned : random01 rand rounds n = some (x, m)) : x < 2 := by
  induction rounds generalizing n with
  | zero => cases returned
  | succ rounds later =>
    rw [random01] at returned
    split at returned
    · obtain ⟨rfl, -⟩ := Prod.mk.inj (Option.some.inj returned)
      exact Nat.mod_lt _ (by decide)
    · exact later returned

/-- Every sequence of 0 and 1 is delivered. -/
theorem exists_delivers {flips : Nat → Nat} (bits : ∀ k, flips k < 2) :
    ∃ rand, Delivers rand flips := by
  refine ⟨fun n => if n % 2 = 0 then flips (n / 2) else 1 - flips (n / 2), fun k => 2 * k, rfl, ?_⟩
  intro k
  have bit := bits k
  refine ⟨1, ?_⟩
  have first : 2 * k % 2 = 0 := by omega
  have second : ¬ (2 * k + 1) % 2 = 0 := by omega
  have half : 2 * k / 2 = k := by omega
  have half' : (2 * k + 1) / 2 = k := by omega
  have x : flips k % 2 = flips k := by omega
  have y : (1 - flips k) % 2 = 1 - flips k := by omega
  have differ : flips k ≠ 1 - flips k := by omega
  simp only [random01, biaseRandom, first, second, half, half', if_true, if_false, x, y]
  rw [if_pos differ]
  rfl

/-! ## The number that is formed -/

/-- The number of the first flips. -/
def formed (flips : Nat → Nat) : Nat → Nat
  | 0 => 0
  | k + 1 => 2 * formed flips k + flips k

/-- The flips at which `crandom` ends: `b` is reached, and the number before exceeds `a`. -/
def Ends (flips : Nat → Nat) (a b : Int) (k : Nat) : Prop :=
  b ≤ formed flips (k + 1) ∧ a < formed flips k

variable {flips : Nat → Nat} {a b : Int} {fuel k m : Nat}

/-- `crandom` ends at the first such flip. -/
theorem crandomLoop_returns {v : Int}
    (returned : crandomLoop flips a b fuel k (formed flips k) = .returns v) :
    ∃ m, k ≤ m ∧ v = formed flips m ∧ Ends flips a b m ∧
      ∀ j, k ≤ j → j < m → ¬ Ends flips a b j := by
  induction fuel generalizing k with
  | zero => cases returned
  | succ fuel later =>
    have goesOn : ∀ notHere : ¬ Ends flips a b k,
        crandomLoop flips a b fuel (k + 1) (formed flips (k + 1)) = .returns v →
        ∃ m, k ≤ m ∧ v = formed flips m ∧ Ends flips a b m ∧
          ∀ j, k ≤ j → j < m → ¬ Ends flips a b j := by
      intro notHere rest
      obtain ⟨m, after, value, ends, first⟩ := later rest
      refine ⟨m, by omega, value, ends, ?_⟩
      intro j low high
      rcases Nat.lt_or_eq_of_le low with above | rfl
      · exact first j above high
      · exact notHere
    rw [crandomLoop] at returned
    split at returned
    · cases returned
    · split at returned
      · rename_i below
        refine goesOn ?_ returned
        rintro ⟨reached, -⟩
        rw [formed] at reached
        omega
      · rename_i reached
        split at returned
        · rename_i exceeds
          refine ⟨k, Nat.le_refl k, ?_, ⟨?_, exceeds⟩, fun j low high => by omega⟩
          · cases returned
            rfl
          · rw [formed]
            omega
        · rename_i notExceeds
          exact goesOn (fun ends => notExceeds ends.2) returned

/-- With enough flips and without overflow `crandom` comes to that flip. -/
theorem crandomLoop_of_ends (low : k ≤ m) (ends : Ends flips a b m)
    (first : ∀ j, k ≤ j → j < m → ¬ Ends flips a b j)
    (fits : ∀ j ≤ m, formed flips (j + 1) ≤ intMax) :
    crandomLoop flips a b (m - k + 1) k (formed flips k) = .returns (formed flips m) := by
  induction gap : m - k generalizing k with
  | zero =>
    obtain rfl : k = m := by omega
    have int := fits k (Nat.le_refl k)
    obtain ⟨reached, exceeds⟩ := ends
    rw [formed] at int reached
    rw [crandomLoop]
    rw [if_neg (by omega), if_neg (by omega), if_pos exceeds]
  | succ gap later =>
    have int := fits k low
    have rest := later (k := k + 1) (by omega) (fun j above high => first j (by omega) high)
      (by omega)
    have notHere := first k (Nat.le_refl k) (by omega)
    rw [crandomLoop]
    rw [formed] at int rest
    rw [if_neg (by omega)]
    split
    · exact rest
    · rename_i reached
      have notExceeds : ¬ (formed flips k : Int) > a := by
        intro exceeds
        refine notHere ⟨?_, exceeds⟩
        rw [formed]
        omega
      rw [if_neg notExceeds]
      exact rest

/-! ## The numbers that are returned -/

/-- Flips that form a number of `m` bits, from the highest one on, and go on with 1. -/
def bitsOf (v m k : Nat) : Nat := if k < m then v / 2 ^ (m - 1 - k) % 2 else 1

/-- They are 0 or 1. -/
theorem bitsOf_lt_two (v m k : Nat) : bitsOf v m k < 2 := by
  unfold bitsOf
  split
  · exact Nat.mod_lt _ (by decide)
  · decide

/-- The upper bits of the number. -/
theorem formed_bitsOf {v m j : Nat} (fits : v < 2 ^ m) (le : j ≤ m) :
    formed (bitsOf v m) j = v / 2 ^ (m - j) := by
  induction j with
  | zero => exact (Nat.div_eq_of_lt fits).symm
  | succ j before =>
    have power : (2 : Nat) ^ (m - j) = 2 ^ (m - 1 - j) * 2 := by
      rw [← Nat.pow_succ]
      congr 1
      omega
    rw [formed, before (by omega), bitsOf, if_pos (by omega), power, ← Nat.div_div_eq_div_mul,
      show m - (j + 1) = m - 1 - j by omega]
    omega

/-- All bits. -/
theorem formed_bitsOf_self {v m : Nat} (fits : v < 2 ^ m) : formed (bitsOf v m) m = v := by
  rw [formed_bitsOf fits (Nat.le_refl m), Nat.sub_self, Nat.pow_zero, Nat.div_one]

/-- A 1 behind all bits. -/
theorem formed_bitsOf_succ {v m : Nat} (fits : v < 2 ^ m) :
    formed (bitsOf v m) (m + 1) = 2 * v + 1 := by
  rw [formed, formed_bitsOf_self fits, bitsOf, if_neg (Nat.lt_irrefl m)]

/-- The upper bits are not more than half of the number. -/
theorem formed_bitsOf_le_half {v m j : Nat} (fits : v < 2 ^ m) (below : j < m) :
    formed (bitsOf v m) j ≤ v / 2 := by
  rw [formed_bitsOf fits (by omega), show m - j = m - 1 - j + 1 by omega, Nat.pow_succ,
    Nat.mul_comm, ← Nat.div_div_eq_div_mul]
  exact Nat.div_le_self _ _

/-- They are not more than the number. -/
theorem formed_bitsOf_le {v m j : Nat} (fits : v < 2 ^ m) (le : j ≤ m) :
    formed (bitsOf v m) j ≤ v := by
  rw [formed_bitsOf fits le]
  exact Nat.div_le_self _ _

/-- A number that `crandom` returns exceeds `a`. It is below `b` and no further flip would keep it
there, or it was not below `b` and its upper bits do not exceed `a`. -/
def Reached (a b v : Int) : Prop :=
  a < v ∧ ((v < b ∧ b ≤ 2 * v + 1) ∨ (b ≤ v ∧ v / 2 ≤ a))

/-- Only such numbers are returned. -/
theorem reached_of_returnable {v : Int} (nonneg : 0 ≤ a) (returnable : v ∈ Returnable a b) :
    Reached a b v := by
  obtain ⟨rand, flips, fuel, ⟨place, -, delivered⟩, returned⟩ := returnable
  have bits : ∀ k, flips k < 2 := by
    intro k
    obtain ⟨rounds, flip⟩ := delivered k
    exact random01_lt_two flip
  rw [crandom] at returned
  split at returned
  · cases returned
  obtain ⟨m, -, rfl, ⟨reached, exceeds⟩, first⟩ := crandomLoop_returns (k := 0) returned
  refine ⟨exceeds, ?_⟩
  by_cases below : (formed flips m : Int) < b
  · have bit := bits m
    rw [formed] at reached
    exact .inl ⟨below, by omega⟩
  · cases m with
    | zero =>
      rw [formed] at exceeds
      omega
    | succ n =>
      have notBefore := first n (Nat.zero_le n) (Nat.lt_succ_self n)
      have bit := bits n
      have upper : ¬ a < formed flips n := fun more => notBefore ⟨by omega, more⟩
      refine .inr ⟨by omega, ?_⟩
      rw [formed]
      omega

/-- All of them are returned. -/
theorem returnable_of_reached {v : Int} (nonneg : 0 ≤ a) (le : a ≤ b) (small : b < 2 ^ 29)
    (reached : Reached a b v) : v ∈ Returnable a b := by
  obtain ⟨exceeds, range⟩ := reached
  obtain ⟨n, rfl⟩ := Int.eq_ofNat_of_zero_le (show 0 ≤ v by omega)
  obtain ⟨rand, delivers⟩ := exists_delivers (bitsOf_lt_two n n)
  have fits : n < 2 ^ n := Nat.lt_two_pow_self
  have last := formed_bitsOf_self fits
  have next := formed_bitsOf_succ fits
  have ends : Ends (bitsOf n n) a b n := by
    rw [Ends, next, last]
    omega
  have first : ∀ j, 0 ≤ j → j < n → ¬ Ends (bitsOf n n) a b j := by
    rintro j - below ⟨reached, more⟩
    have here := formed_bitsOf_le_half fits below
    have after := formed_bitsOf_le fits (show j + 1 ≤ n from below)
    omega
  have noOverflow : ∀ j ≤ n, formed (bitsOf n n) (j + 1) ≤ intMax := by
    intro j below
    unfold intMax
    rcases Nat.lt_or_eq_of_le below with before | rfl
    · have after := formed_bitsOf_le fits (show j + 1 ≤ n from before)
      omega
    · rw [next]
      omega
  have returned := crandomLoop_of_ends (Nat.zero_le n) ends first noOverflow
  refine ⟨rand, bitsOf n n, n - 0 + 1, delivers, ?_⟩
  rw [crandom, if_neg (by omega)]
  rw [last] at returned
  exact returned

/-- For every range, the numbers that `crandom` returns are not those of the range: `a` is none of
them. -/
theorem crandom_range (a b : Int) (nonneg : 0 ≤ a) (le : a ≤ b) (small : b < 2 ^ 29) :
    Returnable a b = { v | Reached a b v } ∧ Returnable a b ≠ { v | a ≤ v ∧ v ≤ b } := by
  have same : Returnable a b = { v | Reached a b v } :=
    Set.Subset.antisymm (fun _ returnable => reached_of_returnable nonneg returnable)
      fun _ reached => returnable_of_reached nonneg le small reached
  refine ⟨same, ?_⟩
  intro range
  have mem : a ∈ { v | a ≤ v ∧ v ≤ b } := ⟨Int.le_refl a, le⟩
  rw [← range, same] at mem
  exact Int.lt_irrefl a mem.1

/-- The range from 2 to 5. -/
theorem crandom_range_two_five :
    Returnable 2 5 = { v | Reached 2 5 v } ∧ Returnable 2 5 ≠ { v | 2 ≤ v ∧ v ≤ 5 } :=
  crandom_range 2 5 (by decide) (by decide) (by decide)

/-- For the range from 2 to 5, the number 2 is not returned. -/
theorem crandom_misses_two : 2 ∉ Returnable 2 5 ∧
    ¬ ∀ a b : Int, 0 ≤ a → a ≤ b → b < 2 ^ 29 → Returnable a b = { v | a ≤ v ∧ v ≤ b } := by
  have missed : 2 ∉ Returnable 2 5 :=
    fun returnable => Int.lt_irrefl 2 (reached_of_returnable (by decide) returnable).1
  refine ⟨missed, ?_⟩
  intro always
  rw [always 2 5 (by decide) (by decide) (by decide)] at missed
  exact missed ⟨by decide, by decide⟩

end CodeLearning.CRandom
