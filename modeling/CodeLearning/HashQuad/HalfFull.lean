import CodeLearning.HashQuad.Table

/-!
# Tables that are at most half full

As long as `insert` leaves at most `(p - 1) / 2` cells used, one of the distinct probes of every
key is free, so that every look-up ends. A key sits at the first of its probes that was free when
it was inserted; the probes before it are used by other keys and stay so.
-/

namespace CodeLearning.HashQuad

open QuadraticProbe

variable {α : Type} [DecidableEq α]

/-- Calls of `insert`, one after the other. -/
def insertAll (s : Hashing α) (fuel : Nat) (h : Table α) (keys : List α) : Option (Table α) :=
  keys.foldlM (insert s fuel) h

/-- The cells that are not empty. -/
def used (h : Table α) : Finset Nat :=
  (Finset.range h.tablesize).filter fun pos => (h.thecells pos).info ≠ .empty

/-- No call of a sequence leaves more than half of the cells used. -/
def NeverOverHalf (s : Hashing α) (h : Table α) (keys : List α) : Prop :=
  ∀ before h', before <+: keys → insertAll s (half h + 1) h before = some h' →
    (used h').card ≤ half h'

/-- The table is the set of the keys: `find` returns the one cell of a key of the set and an empty
cell for every other key, after `(p + 1) / 2` probes at the most. -/
structure Locates (s : Hashing α) (h : Table α) (keys : List α) : Prop where
  /-- Keys of the set. -/
  inserted : ∀ key ∈ keys, ∃ pos < h.tablesize, find s (half h + 1) h key = .ends pos ∧
    h.thecells pos = ⟨key, .legitimate⟩ ∧
    ∀ q < h.tablesize, h.thecells q = ⟨key, .legitimate⟩ → q = pos
  /-- Other keys. -/
  others : ∀ key ∉ keys, ∃ pos < h.tablesize, find s (half h + 1) h key = .ends pos ∧
    (h.thecells pos).info = .empty

/-- The invariant of the calls. -/
structure Holds (s : Hashing α) (h : Table α) (keys : List α) : Prop where
  /-- The size of the table. -/
  sized : Sized h
  /-- A cell that is used holds a key. -/
  kinds : ∀ pos < h.tablesize, (h.thecells pos).info ≠ .empty →
    (h.thecells pos).info = .legitimate ∧ (h.thecells pos).element ∈ keys
  /-- A key is where its look-up ends. -/
  placed : ∀ key ∈ keys, ∃ i ≤ half h, h.thecells (probeOf s h key i) = ⟨key, .legitimate⟩ ∧
    ∀ j < i, Passes h key (probeOf s h key j)
  /-- No two cells hold one key. -/
  unique : ∀ q < h.tablesize, ∀ r < h.tablesize, (h.thecells q).info ≠ .empty →
    (h.thecells r).info ≠ .empty → (h.thecells q).element = (h.thecells r).element → q = r

section Steps

variable {s : Hashing α} {h h' : Table α} {keys more : List α} {key : α} {pos : Nat}

omit [DecidableEq α] in
/-- An empty table holds no keys. -/
theorem holds_empty (sized : Sized h) (empty : ∀ pos < h.tablesize, (h.thecells pos).info = .empty)
    (s : Hashing α) : Holds s h [] where
  sized := sized
  kinds pos inside occupied := absurd (empty pos inside) occupied
  placed _ mem := absurd mem List.not_mem_nil
  unique q insideQ _ _ occupied := absurd (empty q insideQ) occupied

omit [DecidableEq α] in
/-- The table holds a set: only the members of a list of keys matter. -/
theorem Holds.congr (holds : Holds s h keys) (same : ∀ key, key ∈ more ↔ key ∈ keys) :
    Holds s h more where
  sized := holds.sized
  kinds pos inside occupied := by
    obtain ⟨legitimate, mem⟩ := holds.kinds pos inside occupied
    exact ⟨legitimate, (same _).mpr mem⟩
  placed key mem := holds.placed key ((same key).mp mem)
  unique := holds.unique

/-- A look-up in a table that is at most half full ends, at the cell of the key or an empty one. -/
theorem Holds.look (holds : Holds s h keys) (sparse : (used h).card ≤ half h) (key : α) :
    ∃ i ≤ half h, (∀ j < i, Passes h key (probeOf s h key j)) ∧
      (∀ fuel > half h, find s fuel h key = .ends (probeOf s h key i)) ∧
      ((key ∈ keys ∧ h.thecells (probeOf s h key i) = ⟨key, .legitimate⟩) ∨
        (key ∉ keys ∧ (h.thecells (probeOf s h key i)).info = .empty)) := by
  obtain ⟨free, lowF, notUsed⟩ :=
    exists_probe_notMem holds.sized.prime (s.hash key h.tablesize) sparse
  have empty : (h.thecells (probeOf s h key free)).info = .empty := by
    by_contra occupied
    have inside := Finset.mem_range.mpr (holds.sized.probeOf_lt s key free)
    exact notUsed (Finset.mem_filter.mpr ⟨inside, occupied⟩)
  obtain ⟨i, low, passes, stops, ends⟩ :=
    exists_find_ends holds.sized ⟨free, lowF, fun passes => passes.1 empty⟩
  refine ⟨i, low, passes, ends, ?_⟩
  by_cases mem : key ∈ keys
  · -- The first probe where the look-up stops is the one where the key was put.
    obtain ⟨k, lowK, cell, before⟩ := holds.placed key mem
    have stopsK : ¬ Passes h key (probeOf s h key k) := by
      intro passesK
      rw [Passes, cell] at passesK
      exact passesK.2 rfl
    have same : k = i := by
      rcases Nat.lt_trichotomy k i with less | equal | greater
      · exact absurd (passes k less) stopsK
      · exact equal
      · exact absurd (before i greater) stops
    exact .inl ⟨mem, same ▸ cell⟩
  · refine .inr ⟨mem, ?_⟩
    by_contra occupied
    obtain ⟨-, other⟩ := holds.kinds _ (holds.sized.probeOf_lt s key i) occupied
    refine stops ⟨occupied, fun equal => mem ?_⟩
    rwa [equal] at other

omit [DecidableEq α] in
/-- A key that is put into the empty cell where its look-up ends. -/
theorem Holds.put {i : Nat} (holds : Holds s h keys) (low : i ≤ half h) (fresh : key ∉ keys)
    (passes : ∀ j < i, Passes h key (probeOf s h key j))
    (empty : (h.thecells (probeOf s h key i)).info = .empty) :
    Holds s { h with
      thecells := Function.update h.thecells (probeOf s h key i) ⟨key, .legitimate⟩ }
      (key :: keys) := by
  -- A cell that is passed or used was not empty, so it is not the one that changes.
  have kept : ∀ {q}, (h.thecells q).info ≠ .empty →
      Function.update h.thecells (probeOf s h key i) ⟨key, .legitimate⟩ q = h.thecells q := by
    intro q occupied
    refine Function.update_of_ne ?_ _ _
    rintro rfl
    exact occupied empty
  have stillPasses : ∀ {other : α} {q}, Passes h other q → Passes { h with
      thecells := Function.update h.thecells (probeOf s h key i) ⟨key, .legitimate⟩ } other q := by
    intro other q passed
    simpa only [Passes, kept passed.1] using passed
  refine ⟨⟨holds.sized.prime, holds.sized.odd⟩, fun q inside occupied => ?_,
    fun other mem => ?_, fun q insideQ r insideR occupiedQ occupiedR equal => ?_⟩
  · by_cases here : q = probeOf s h key i
    · simp [here]
    · simp only [Function.update_of_ne here] at occupied ⊢
      obtain ⟨legitimate, mem⟩ := holds.kinds q inside occupied
      exact ⟨legitimate, List.mem_cons_of_mem key mem⟩
  · rcases List.mem_cons.mp mem with rfl | old
    · exact ⟨i, low, Function.update_self _ _ _, fun j below => stillPasses (passes j below)⟩
    · obtain ⟨k, lowK, cell, before⟩ := holds.placed other old
      have occupied : (h.thecells (probeOf s h other k)).info ≠ .empty := by simp [cell]
      exact ⟨k, lowK, (kept occupied).trans cell, fun j below => stillPasses (before j below)⟩
  · have apart : ∀ q < h.tablesize, (h.thecells q).info ≠ .empty →
        (h.thecells q).element ≠ key := by
      intro q inside occupied equal
      exact fresh (equal ▸ (holds.kinds q inside occupied).2)
    simp only at occupiedQ occupiedR equal insideQ insideR
    by_cases hereQ : q = probeOf s h key i
    · by_cases hereR : r = probeOf s h key i
      · rw [hereQ, hereR]
      · simp only [hereQ, Function.update_self, Function.update_of_ne hereR] at occupiedR equal
        exact absurd equal.symm (apart r insideR occupiedR)
    · by_cases hereR : r = probeOf s h key i
      · simp only [hereR, Function.update_self, Function.update_of_ne hereQ] at occupiedQ equal
        exact absurd equal (apart q insideQ occupiedQ)
      · rw [Function.update_of_ne hereQ] at occupiedQ equal
        rw [Function.update_of_ne hereR] at occupiedR equal
        exact holds.unique q insideQ r insideR occupiedQ occupiedR equal

/-- `insert` in a table that is at most half full adds the key to the set. -/
theorem Holds.insert (holds : Holds s h keys) (sparse : (used h).card ≤ half h) (key : α) :
    ∃ h', insert s (half h + 1) h key = some h' ∧ Holds s h' (key :: keys) := by
  obtain ⟨i, low, passes, ends, ended⟩ := holds.look sparse key
  have looked := ends (half h + 1) (Nat.lt_succ_self _)
  rcases ended with ⟨mem, cell⟩ | ⟨fresh, empty⟩
  · refine ⟨h, ?_, holds.congr fun other => ?_⟩
    · simp [HashQuad.insert, looked, cell]
    · constructor
      · intro memC
        rcases List.mem_cons.mp memC with rfl | old
        · exact mem
        · exact old
      · exact List.mem_cons_of_mem key
  · refine ⟨_, ?_, holds.put low fresh passes empty⟩
    simp [HashQuad.insert, looked, empty]

/-- A sequence of calls that never leaves more than half of the cells used. -/
theorem Holds.insertAll (holds : Holds s h keys) (sparse : NeverOverHalf s h more) :
    ∃ h', insertAll s (half h + 1) h more = some h' ∧ Holds s h' (more.reverse ++ keys) ∧
      half h' = half h ∧ (used h').card ≤ half h' := by
  induction more generalizing h keys with
  | nil => exact ⟨h, rfl, holds, rfl, sparse [] h (List.nil_prefix) rfl⟩
  | cons key more rest =>
    have now := sparse [] h List.nil_prefix rfl
    obtain ⟨h1, inserted, holds1⟩ := holds.insert now key
    have size : half h1 = half h := by rw [half, insert_tablesize inserted, half]
    have sparse1 : NeverOverHalf s h1 more := by
      intro before h' initial ran
      refine sparse (key :: before) h' (List.cons_prefix_cons.mpr ⟨rfl, initial⟩) ?_
      rw [size] at ran
      simpa [HashQuad.insertAll, inserted] using ran
    obtain ⟨h', ran, holds', size', sparse'⟩ := rest holds1 sparse1
    refine ⟨h', ?_, ?_, size'.trans size, sparse'⟩
    · rw [size] at ran
      simpa [HashQuad.insertAll, inserted] using ran
    · simpa using holds'

/-- The invariant says what every look-up returns. -/
theorem Holds.locates (holds : Holds s h keys) (sparse : (used h).card ≤ half h) :
    Locates s h keys := by
  refine ⟨fun key mem => ?_, fun key notMem => ?_⟩
  · obtain ⟨i, -, -, ends, ended⟩ := holds.look sparse key
    rcases ended with ⟨-, cell⟩ | ⟨fresh, -⟩
    · have inside := holds.sized.probeOf_lt s key i
      refine ⟨_, inside, ends _ (Nat.lt_succ_self _), cell, fun q insideQ cellQ => ?_⟩
      refine holds.unique q insideQ _ inside ?_ ?_ ?_
      · simp [cellQ]
      · simp [cell]
      · rw [cell, cellQ]
    · exact absurd mem fresh
  · obtain ⟨i, -, -, ends, ended⟩ := holds.look sparse key
    rcases ended with ⟨mem, -⟩ | ⟨-, empty⟩
    · exact absurd mem notMem
    · exact ⟨_, holds.sized.probeOf_lt s key i, ends _ (Nat.lt_succ_self _), empty⟩

/-- Every sequence of calls of `insert` that never leaves more than half of the cells used runs to
its end with at most `(p + 1) / 2` probes for each look-up, all of them in the table, and makes
the table the set of its keys. -/
theorem half_full_set (s : Hashing α) (memory : Nat → Cell α) (n : Nat) (h : Table α)
    (made : initializeTable s memory n = some h) (keys : List α)
    (sparse : NeverOverHalf s h keys) :
    ∃ h', insertAll s (half h + 1) h keys = some h' ∧ half h' = half h ∧ Locates s h' keys := by
  obtain ⟨sized, empty⟩ := initializeTable_spec made
  obtain ⟨h', ran, holds, size, sparse'⟩ := (holds_empty sized empty s).insertAll sparse
  refine ⟨h', ran, size, (holds.congr fun key => ?_).locates sparse'⟩
  simp

/-- The keys 7 and 2, which have one hash, are put into a table of five cells. -/
theorem half_full_set_two :
    initializeTable remainder (fun _ => ⟨0, .deleted⟩) 5 = some (newTable 5) ∧
      ∃ h, insertAll remainder 3 (newTable 5) [7, 2] = some h ∧ half h = 2 ∧
        Locates remainder h [7, 2] := by
  have made := initializeTable_prime Nat.prime_five (by decide)
  refine ⟨made, half_full_set remainder _ 5 (newTable 5) made [7, 2] ?_⟩
  have each : ∀ before ∈ [[], [7], [7, 2]], (insertAll remainder 3 (newTable 5) before).all
      (fun h => decide ((used h).card ≤ half h)) = true := by decide +kernel
  intro before h initial ran
  have mem : before ∈ [[], [7], [7, 2]] := (List.mem_inits before [7, 2]).mpr initial
  have computed := each before mem
  rw [show insertAll remainder 3 (newTable 5) before = some h from ran] at computed
  simpa using computed

end Steps

end CodeLearning.HashQuad
