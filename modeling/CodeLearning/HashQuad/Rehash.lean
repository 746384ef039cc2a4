import CodeLearning.HashQuad.HalfFull
import CodeLearning.Lib.CInt
import Mathlib.NumberTheory.Bertrand

/-!
# Rehashing

`rehash` makes a table of twice the size and inserts the keys of the old one. A table has no more
keys than cells, and the new size is odd, so that at most half of the new table is used at every
insertion and each of its look-ups ends. Twice the size is computed as an `int`: a table of more
than `2 ^ 30` cells cannot be rehashed.
-/

namespace CodeLearning.HashQuad

open CInt QuadraticProbe

variable {α : Type} [DecidableEq α]

/-- A round of the loop of `rehash`. -/
def reinsert (s : Hashing α) (fuel : Nat) (old new : Table α) (i : Nat) : Option (Table α) :=
  if (old.thecells i).info = .legitimate then insert s fuel new (old.thecells i).element
  else some new

/-- `rehash`, when there is memory for the new table; `none` when `2 * oldsize` overflows, when
`initialize_table` returns `NULL`, or when a look-up does not return. -/
def rehash (s : Hashing α) (memory : Nat → Cell α) (fuel : Nat) (h : Table α) :
    Option (Table α) :=
  if 2 * h.tablesize ≤ intMax then do
    let new ← initializeTable s memory (2 * h.tablesize)
    (List.range h.tablesize).foldlM (reinsert s fuel h) new
  else none

/-- A legitimate cell. -/
def isLegitimate (h : Table α) (i : Nat) : Bool := decide ((h.thecells i).info = .legitimate)

/-- The keys of the legitimate cells. -/
def legitimateKeys (h : Table α) : List α :=
  ((List.range h.tablesize).filter (isLegitimate h)).map fun i => (h.thecells i).element

/-- What `rehash` is to return: a table of prime size, at least twice as large, with the keys of the
legitimate cells and no others, each at the one cell where `find` ends. -/
structure Rehashed (s : Hashing α) (h new : Table α) : Prop where
  /-- The size is a prime. -/
  prime : new.tablesize.Prime
  /-- The size is at least doubled. -/
  doubled : 2 * h.tablesize ≤ new.tablesize
  /-- Each key is found at its one cell, and other keys are not found. -/
  locates : Locates s new (legitimateKeys h)
  /-- There are no other keys. -/
  exact : ∀ pos < new.tablesize, (new.thecells pos).info = .legitimate →
    (new.thecells pos).element ∈ legitimateKeys h

section Load

variable {s : Hashing α} {h h' : Table α} {keys : List α} {key : α} {fuel : Nat}

/-- The loop inserts the keys of the legitimate cells. -/
theorem foldlM_reinsert (list : List Nat) (new : Table α) :
    list.foldlM (reinsert s fuel h) new = insertAll s fuel new
      ((list.filter (isLegitimate h)).map fun i => (h.thecells i).element) := by
  induction list generalizing new with
  | nil => rfl
  | cons i rest later =>
    by_cases legitimate : (h.thecells i).info = .legitimate
    · have kept : isLegitimate h i = true := decide_eq_true legitimate
      rw [List.filter_cons_of_pos kept, List.foldlM_cons, reinsert, if_pos legitimate,
        List.map_cons, insertAll, List.foldlM_cons]
      exact bind_congr later
    · have dropped : ¬ isLegitimate h i = true := fun kept => legitimate (of_decide_eq_true kept)
      rw [List.filter_cons_of_neg dropped, List.foldlM_cons, reinsert, if_neg legitimate]
      exact later new

omit [DecidableEq α] in
/-- There are no more keys than cells. -/
theorem length_legitimateKeys : (legitimateKeys h).length ≤ h.tablesize := by
  rw [legitimateKeys, List.length_map]
  exact (List.length_filter_le _ _).trans (Nat.le_of_eq List.length_range)

/-- `insert` uses one more cell at the most. -/
theorem card_used_insert (inserted : insert s fuel h key = some h') :
    (used h').card ≤ (used h).card + 1 := by
  unfold insert at inserted
  cases look : find s fuel h key with
  | ends pos =>
    rw [look] at inserted
    by_cases fresh : (h.thecells pos).info ≠ .legitimate
    · simp only [if_pos fresh] at inserted
      obtain rfl := Option.some.inj inserted
      refine (Finset.card_le_card ?_).trans (Finset.card_insert_le pos (used h))
      intro q mem
      obtain ⟨inside, occupied⟩ := Finset.mem_filter.mp mem
      by_cases here : q = pos
      · exact Finset.mem_insert.mpr (.inl here)
      · simp only [Function.update_of_ne here] at occupied
        exact Finset.mem_insert_of_mem (Finset.mem_filter.mpr ⟨inside, occupied⟩)
    · simp only [if_neg fresh] at inserted
      rw [← Option.some.inj inserted]
      exact Nat.le_succ _
  | outside pos => simp [look] at inserted
  | unfinished => simp [look] at inserted

/-- Calls of `insert` use a cell each at the most. -/
theorem card_used_insertAll (ran : insertAll s fuel h keys = some h') :
    (used h').card ≤ (used h).card + keys.length ∧ h'.tablesize = h.tablesize := by
  induction keys generalizing h with
  | nil =>
    obtain rfl := Option.some.inj ran
    exact ⟨Nat.le_refl _, rfl⟩
  | cons key keys later =>
    rw [insertAll, List.foldlM_cons] at ran
    obtain ⟨middle, inserted, rest⟩ := Option.bind_eq_some_iff.mp ran
    have first := card_used_insert inserted
    obtain ⟨bound, size⟩ := later rest
    rw [List.length_cons]
    exact ⟨by omega, size.trans (insert_tablesize inserted)⟩

/-- An empty table of more than twice as many cells as there are keys is never more than half
full. -/
theorem neverOverHalf_of_length (empty : ∀ pos < h.tablesize, (h.thecells pos).info = .empty)
    (large : keys.length ≤ half h) : NeverOverHalf s h keys := by
  intro before h' initial ran
  obtain ⟨bound, size⟩ := card_used_insertAll ran
  have unused : (used h).card = 0 := by
    rw [Finset.card_eq_zero, used, Finset.filter_eq_empty_iff]
    intro pos mem
    exact not_not.mpr (empty pos (Finset.mem_range.mp mem))
  have short := initial.length_le
  have same : half h' = half h := by rw [half, size, half]
  omega

end Load

/-- `rehash` ends and returns a table with the same keys exactly when twice the size is accepted by
`initialize_table` and is an `int`. -/
theorem rehash_iff (s : Hashing α) (atLeast : ∀ n ≥ s.mintablesize, n ≤ s.nextprime n)
    (memory : Nat → Cell α) (h : Table α) :
    (∃ fuel new, rehash s memory fuel h = some new ∧ Rehashed s h new) ↔
      s.mintablesize ≤ 2 * h.tablesize ∧ 2 * h.tablesize ≤ intMax := by
  constructor
  · rintro ⟨fuel, new, returned, -⟩
    unfold rehash at returned
    split at returned
    · rename_i noOverflow
      obtain ⟨made, initialized, -⟩ := Option.bind_eq_some_iff.mp returned
      refine ⟨?_, noOverflow⟩
      by_contra small
      rw [initializeTable, if_pos (by omega)] at initialized
      cases initialized
    · cases returned
  · rintro ⟨accepted, noOverflow⟩
    obtain ⟨made, initialized, size⟩ : ∃ made,
        initializeTable s memory (2 * h.tablesize) = some made ∧
          made.tablesize = s.nextprime (2 * h.tablesize) :=
      ⟨_, if_neg (Nat.not_lt.mpr accepted), rfl⟩
    obtain ⟨sized, empty⟩ := initializeTable_spec initialized
    have doubled : 2 * h.tablesize ≤ made.tablesize := by
      rw [size]
      exact atLeast _ accepted
    have odd := sized.odd
    have keys : (legitimateKeys h).length ≤ h.tablesize := length_legitimateKeys
    have room : (legitimateKeys h).length ≤ half made := by
      unfold half
      omega
    obtain ⟨new, ran, holds, same, sparse⟩ :=
      (holds_empty sized empty s).insertAll (neverOverHalf_of_length empty room)
    have size' : new.tablesize = made.tablesize := (card_used_insertAll ran).2
    have holds' : Holds s new (legitimateKeys h) := holds.congr fun key => by simp
    refine ⟨half made + 1, new, ?_, ?_⟩
    · rw [rehash, if_pos noOverflow, initialized]
      exact (foldlM_reinsert _ made).trans ran
    · refine ⟨holds'.sized.prime, size' ▸ doubled, holds'.locates sparse, ?_⟩
      intro pos inside legitimate
      have occupied : (new.thecells pos).info ≠ .empty := by simp [legitimate]
      exact (holds'.kinds pos inside occupied).2

/-- The next prime is not smaller. -/
theorem le_nextprime_remainder (n : Nat) : n ≤ remainder.nextprime n :=
  (Nat.find_spec (Nat.exists_infinite_primes n)).1

/-- A table of three cells, with a legitimate, a deleted and an empty one. -/
def threeCells : Table Nat where
  tablesize := 3
  thecells i := if i = 0 then ⟨6, .legitimate⟩ else if i = 1 then ⟨4, .deleted⟩ else ⟨5, .empty⟩

/-- The table of three cells is rehashed. -/
theorem rehash_threeCells : ∃ fuel new,
    rehash remainder (fun _ => ⟨0, .deleted⟩) fuel threeCells = some new ∧
      Rehashed remainder threeCells new :=
  (rehash_iff remainder (fun n _ => le_nextprime_remainder n) (fun _ => ⟨0, .deleted⟩)
    threeCells).mpr ⟨by decide, by decide⟩

/-- A new table of more than `2 ^ 30` cells, whose size is an `int`, cannot be rehashed. -/
theorem rehash_overflows : ∃ h,
    initializeTable remainder (fun _ => ⟨0, .deleted⟩) (2 ^ 30 + 1) = some h ∧
      h.tablesize ≤ intMax ∧ ¬ ∃ fuel new,
        rehash remainder (fun _ => ⟨0, .deleted⟩) fuel h = some new ∧ Rehashed remainder h new := by
  have accepted : ¬ 2 ^ 30 + 1 < remainder.mintablesize := by decide
  have large := le_nextprime_remainder (2 ^ 30 + 1)
  have int : remainder.nextprime (2 ^ 30 + 1) ≤ intMax := by
    obtain ⟨p, prime, above, below⟩ := Nat.exists_prime_lt_and_le_two_mul (2 ^ 30) (by decide)
    have notEven : p ≠ 2 * 2 ^ 30 := by
      rintro rfl
      exact Nat.not_prime_mul (by decide) (by decide) prime
    have least : remainder.nextprime (2 ^ 30 + 1) ≤ p := Nat.find_min' _ ⟨above, prime⟩
    unfold intMax
    omega
  refine ⟨_, if_neg accepted, int, ?_⟩
  rintro ⟨fuel, new, returned, -⟩
  rw [rehash, if_neg] at returned
  · cases returned
  · change ¬ 2 * remainder.nextprime (2 ^ 30 + 1) ≤ intMax
    unfold intMax
    omega

end CodeLearning.HashQuad
