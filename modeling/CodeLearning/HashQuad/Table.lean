import CodeLearning.Lib.QuadraticProbe
import Mathlib.Data.Nat.Prime.Infinite

/-!
# The quadratic probing table

`hashquad.c` looks a key up at its hash and then at growing distances from it, and subtracts the
table size at most once for each step. A look-up either ends at a cell or reads outside of the
table; what it does is settled by the first `(p + 1) / 2` probes of the key, where `p` is the size
of the table. `nextprime`, `hash` and `mintablesize` are not part of the program.
-/

namespace CodeLearning.HashQuad

open QuadraticProbe

/-- `enum kindofentry`. -/
inductive KindOfEntry where
  /-- The cell holds an element. -/
  | legitimate
  /-- The cell was never used. -/
  | empty
  /-- The cell held an element. -/
  | deleted
deriving DecidableEq

/-- `struct hashentry`. -/
structure Cell (α : Type) where
  /-- The element. -/
  element : α
  /-- What the cell is used for. -/
  info : KindOfEntry
deriving DecidableEq

/-- `struct hashtbl`. -/
structure Table (α : Type) where
  /-- Number of cells. -/
  tablesize : Nat
  /-- The cells. -/
  thecells : Nat → Cell α

/-- What the program takes from elsewhere. -/
structure Hashing (α : Type) where
  /-- The least size that `initialize_table` accepts. -/
  mintablesize : Nat
  /-- `nextprime`. -/
  nextprime : Nat → Nat
  /-- `hash`. -/
  hash : α → Nat → Nat
  /-- `nextprime` returns a prime. -/
  prime : ∀ n ≥ mintablesize, (nextprime n).Prime
  /-- The prime is odd. -/
  odd : ∀ n ≥ mintablesize, nextprime n % 2 = 1
  /-- `hash` returns a position of the table. -/
  hash_lt : ∀ key p, 0 < p → hash key p < p

variable {α : Type}

/-- The loop of `initialize_table` over the first `i` cells. -/
def emptyLoop : Nat → (Nat → Cell α) → (Nat → Cell α)
  | 0, cells => cells
  | i + 1, cells =>
    let cells := emptyLoop i cells
    Function.update cells i { cells i with info := .empty }

/-- `initialize_table`, when there is memory; the cells hold anything before. -/
def initializeTable (s : Hashing α) (memory : Nat → Cell α) (tablesize : Nat) : Option (Table α) :=
  if tablesize < s.mintablesize then none
  else
    some { tablesize := s.nextprime tablesize
           thecells := emptyLoop (s.nextprime tablesize) memory }

/-- How a look-up goes on. -/
inductive Lookup where
  /-- It returns this position. -/
  | ends (pos : Nat)
  /-- It reads a cell outside of the table. -/
  | outside (pos : Nat)
  /-- It has not ended after so many probes. -/
  | unfinished
deriving DecidableEq

variable [DecidableEq α]

/-- The condition of the loop of `find`. -/
def Passes (h : Table α) (key : α) (pos : Nat) : Prop :=
  (h.thecells pos).info ≠ .empty ∧ (h.thecells pos).element ≠ key

/-- The condition can be decided. -/
instance (h : Table α) (key : α) (pos : Nat) : Decidable (Passes h key pos) :=
  inferInstanceAs (Decidable (_ ∧ _))

/-- The loop of `find`. -/
def findLoop (h : Table α) (key : α) : Nat → Nat → Nat → Lookup
  | 0, _, _ => .unfinished
  | fuel + 1, currentpos, collisionnum =>
    if h.tablesize ≤ currentpos then .outside currentpos
    else if Passes h key currentpos then
      let collisionnum := collisionnum + 1
      let currentpos := currentpos + (2 * collisionnum - 1)
      findLoop h key fuel
        (if h.tablesize ≤ currentpos then currentpos - h.tablesize else currentpos) collisionnum
    else .ends currentpos

/-- `find`. -/
def find (s : Hashing α) (fuel : Nat) (h : Table α) (key : α) : Lookup :=
  findLoop h key fuel (s.hash key h.tablesize) 0

/-- `insert`; `none` when its look-up does not return. -/
def insert (s : Hashing α) (fuel : Nat) (h : Table α) (key : α) : Option (Table α) :=
  match find s fuel h key with
  | .ends pos =>
    if (h.thecells pos).info ≠ .legitimate then
      some { h with thecells := Function.update h.thecells pos ⟨key, .legitimate⟩ }
    else some h
  | _ => none

/-- Number of probes that are distinct. -/
def half (h : Table α) : Nat := (h.tablesize - 1) / 2

/-- The probes of a key. -/
def probeOf (s : Hashing α) (h : Table α) (key : α) (i : Nat) : Nat :=
  probe h.tablesize (s.hash key h.tablesize) i

/-- A table that `initialize_table` may have made. -/
structure Sized (h : Table α) : Prop where
  /-- Its size is a prime. -/
  prime : h.tablesize.Prime
  /-- Its size is odd. -/
  odd : h.tablesize % 2 = 1

/-! ## Tables -/

section Tables

variable {s : Hashing α} {memory : Nat → Cell α} {h h' : Table α} {key : α} {n fuel pos : Nat}

omit [DecidableEq α] in
/-- The loop of `initialize_table` empties the cells. -/
theorem emptyLoop_info {i : Nat} (below : i < n) : (emptyLoop n memory i).info = .empty := by
  induction n with
  | zero => omega
  | succ n rest =>
    rw [emptyLoop]
    by_cases last : i = n
    · rw [last, Function.update_self]
    · rw [Function.update_of_ne last]
      exact rest (by omega)

omit [DecidableEq α] in
/-- `initialize_table` makes an empty table whose size is an odd prime. -/
theorem initializeTable_spec (made : initializeTable s memory n = some h) :
    Sized h ∧ ∀ i < h.tablesize, (h.thecells i).info = .empty := by
  unfold initializeTable at made
  by_cases small : n < s.mintablesize
  · rw [if_pos small] at made
    cases made
  · rw [if_neg small] at made
    obtain rfl := Option.some.inj made
    have enough : n ≥ s.mintablesize := by omega
    exact ⟨⟨s.prime n enough, s.odd n enough⟩, fun i below => emptyLoop_info below⟩

/-- `insert` keeps the size of the table. -/
theorem insert_tablesize (inserted : insert s fuel h key = some h') :
    h'.tablesize = h.tablesize := by
  unfold insert at inserted
  cases look : find s fuel h key with
  | ends pos =>
    rw [look] at inserted
    by_cases fresh : (h.thecells pos).info ≠ .legitimate
    · simp only [if_pos fresh] at inserted
      obtain rfl := Option.some.inj inserted
      rfl
    · simp only [if_neg fresh] at inserted
      rw [Option.some.inj inserted]
  | outside pos => simp [look] at inserted
  | unfinished => simp [look] at inserted

/-- The tables of one size are all sized. -/
theorem Sized.insert (sized : Sized h) (inserted : insert s fuel h key = some h') : Sized h' := by
  have same := insert_tablesize inserted
  exact ⟨by rw [same]; exact sized.prime, by rw [same]; exact sized.odd⟩

end Tables

/-! ## Look-ups -/

section Lookups

variable {s : Hashing α} {h : Table α} {key : α} {fuel more pos i c : Nat}

/-- A look-up that has come to an end does the same with more fuel. -/
theorem findLoop_mono {look : Lookup} (looked : findLoop h key fuel pos c = look)
    (settled : look ≠ .unfinished) (enough : fuel ≤ more) :
    findLoop h key more pos c = look := by
  induction fuel generalizing more pos c with
  | zero => exact absurd looked.symm settled
  | succ fuel rest =>
    obtain ⟨more, rfl⟩ : ∃ n, more = n + 1 := ⟨more - 1, by omega⟩
    rw [findLoop] at looked ⊢
    by_cases out : h.tablesize ≤ pos
    · rwa [if_pos out] at looked ⊢
    · rw [if_neg out] at looked ⊢
      by_cases passes : Passes h key pos
      · rw [if_pos passes] at looked ⊢
        exact rest looked (by omega)
      · rwa [if_neg passes] at looked ⊢

/-- Two settled runs of one look-up agree. -/
theorem find_unique {left right : Lookup} {fuelL fuelR : Nat} (lookL : find s fuelL h key = left)
    (lookR : find s fuelR h key = right) (settledL : left ≠ .unfinished)
    (settledR : right ≠ .unfinished) : left = right := by
  have wideL := findLoop_mono lookL settledL (Nat.le_max_left fuelL fuelR)
  have wideR := findLoop_mono lookR settledR (Nat.le_max_right fuelL fuelR)
  exact wideL.symm.trans wideR

omit [DecidableEq α] in
/-- A probe is a position of the table. -/
theorem Sized.probeOf_lt (sized : Sized h) (s : Hashing α) (key : α) (i : Nat) :
    probeOf s h key i < h.tablesize := probe_lt (s.hash_lt key h.tablesize sized.prime.pos)

/-- Within the first half a step goes to the next probe. -/
theorem findLoop_probe (sized : Sized h) (low : i ≤ half h)
    (passes : Passes h key (probeOf s h key i)) :
    findLoop h key (fuel + 1) (probeOf s h key i) i =
      findLoop h key fuel (probeOf s h key (i + 1)) (i + 1) := by
  have inside := sized.probeOf_lt s key i
  have bound : probeOf s h key i + (2 * (i + 1) - 1) < 2 * h.tablesize := by
    have odd := sized.odd
    unfold half at low
    omega
  rw [findLoop, if_neg (Nat.not_le.mpr inside), if_pos passes]
  simp only [← sub_once bound]
  rw [probeOf, probeOf, probe_succ]

/-- A look-up passes the probes before the first one where it stops. -/
theorem findLoop_probes (sized : Sized h) (low : i ≤ half h + 1)
    (passes : ∀ j < i, Passes h key (probeOf s h key j)) :
    find s (fuel + i) h key = findLoop h key fuel (probeOf s h key i) i := by
  induction i generalizing fuel with
  | zero =>
    rw [find, probeOf, probe_zero (s.hash_lt key h.tablesize sized.prime.pos)]
    rfl
  | succ i before =>
    have step : findLoop h key (fuel + 1) (probeOf s h key i) i =
        findLoop h key fuel (probeOf s h key (i + 1)) (i + 1) :=
      findLoop_probe sized (by omega) (passes i (by omega))
    rw [← step, ← before (by omega) fun j below => passes j (by omega), Nat.add_assoc,
      Nat.add_comm 1 i]

/-- A look-up ends at the first probe where it stops. -/
theorem find_ends (sized : Sized h) (low : i ≤ half h)
    (passes : ∀ j < i, Passes h key (probeOf s h key j))
    (stops : ¬ Passes h key (probeOf s h key i)) (enough : i < fuel) :
    find s fuel h key = .ends (probeOf s h key i) := by
  obtain ⟨rest, rfl⟩ : ∃ rest, fuel = rest + 1 + i := ⟨fuel - i - 1, by omega⟩
  have inside := sized.probeOf_lt s key i
  rw [findLoop_probes sized (by omega) passes, findLoop, if_neg (Nat.not_le.mpr inside)]
  exact if_neg stops

/-- A look-up that can stop at one of the distinct probes ends at the first of them. -/
theorem exists_find_ends (sized : Sized h)
    (stop : ∃ i ≤ half h, ¬ Passes h key (probeOf s h key i)) :
    ∃ i ≤ half h, (∀ j < i, Passes h key (probeOf s h key j)) ∧
      ¬ Passes h key (probeOf s h key i) ∧
      ∀ fuel > half h, find s fuel h key = .ends (probeOf s h key i) := by
  have found : ∃ i, i ≤ half h ∧ ¬ Passes h key (probeOf s h key i) := stop
  have low := (Nat.find_spec found).1
  have stops := (Nat.find_spec found).2
  have passes : ∀ j < Nat.find found, Passes h key (probeOf s h key j) := by
    intro j below
    by_contra stopsJ
    exact Nat.find_min found below ⟨by omega, stopsJ⟩
  exact ⟨Nat.find found, low, passes, stops, fun fuel enough =>
    find_ends sized low passes stops (by omega)⟩

end Lookups

/-! ## Numbers as keys -/

/-- Numbers are hashed by their remainder, and sizes from 3 on are rounded up to a prime. -/
def remainder : Hashing Nat where
  mintablesize := 3
  nextprime n := Nat.find (Nat.exists_infinite_primes n)
  hash key p := key % p
  prime n _ := (Nat.find_spec (Nat.exists_infinite_primes n)).2
  odd n low := by
    obtain ⟨high, prime⟩ := Nat.find_spec (Nat.exists_infinite_primes n)
    exact prime.eq_two_or_odd.resolve_left (by omega)
  hash_lt key _ positive := Nat.mod_lt key positive

/-- A new table of `p` cells for numbers. -/
def newTable (p : Nat) : Table Nat :=
  { tablesize := p, thecells := emptyLoop p fun _ => ⟨0, .deleted⟩ }

/-- `initialize_table` of a prime makes a table of that size. -/
theorem initializeTable_prime {p : Nat} (prime : p.Prime) (low : 3 ≤ p) :
    initializeTable remainder (fun _ => ⟨0, .deleted⟩) p = some (newTable p) := by
  have next : remainder.nextprime p = p :=
    (Nat.find_eq_iff _).mpr ⟨⟨Nat.le_refl p, prime⟩, fun _ below found => by omega⟩
  rw [initializeTable, if_neg (show ¬ p < remainder.mintablesize from Nat.not_lt.mpr low), next]
  rfl

end CodeLearning.HashQuad
