import CodeLearning.HashQuad.Table

/-!
# Look-ups that leave the table

Nothing limits the load of a table. A look-up that passes all the distinct probes of its key takes
steps that are longer than the table from then on, so that one subtraction does not bring it back:
its position grows until it reads a cell outside of the table.
-/

namespace CodeLearning.HashQuad

open QuadraticProbe

variable {α : Type} [DecidableEq α]

/-- A call on a table. -/
inductive Call (α : Type) where
  /-- `insert`. -/
  | insert (key : α)
  /-- `find`. -/
  | find (key : α)

/-- The key of a call. -/
def Call.key : Call α → α
  | insert key => key
  | find key => key

/-- A call; `none` when its look-up does not return. -/
def perform (s : Hashing α) (fuel : Nat) (h : Table α) : Call α → Option (Table α)
  | .insert key => insert s fuel h key
  | .find key =>
    match find s fuel h key with
    | .ends _ => some h
    | _ => none

/-- Every look-up of the calls ends without a read outside of the table. -/
def Completes (s : Hashing α) (h : Table α) : List (Call α) → Prop
  | [] => True
  | call :: calls => ∃ fuel h', perform s fuel h call = some h' ∧ Completes s h' calls

/-- One of the distinct probes of the key is an empty cell or holds the key. -/
def Stoppable (s : Hashing α) (h : Table α) (key : α) : Prop :=
  ∃ i ≤ half h, (h.thecells (probeOf s h key i)).info = .empty ∨
    (h.thecells (probeOf s h key i)).element = key

/-- Every call finds a probe of its key where its look-up can stop. -/
def StoppableThroughout (s : Hashing α) (h : Table α) : List (Call α) → Prop
  | [] => True
  | call :: calls => Stoppable s h call.key ∧
    ∀ fuel h', perform s fuel h call = some h' → StoppableThroughout s h' calls

section Outside

variable {s : Hashing α} {h h' : Table α} {key : α} {call : Call α} {c fuel : Nat}

omit [DecidableEq α] in
/-- A key is stoppable when one of its distinct probes does not pass. -/
theorem stoppable_iff : Stoppable s h key ↔ ∃ i ≤ half h, ¬ Passes h key (probeOf s h key i) := by
  simp only [Stoppable, Passes, not_and_or, not_not]

/-- From the second half on every step moves the look-up up, until it is outside. -/
theorem findLoop_outside (sized : Sized h) (high : half h < c)
    (passes : ∀ n, Passes h key (probeOf s h key n)) :
    ∃ fuel pos, findLoop h key fuel (probeOf s h key c) c = .outside pos := by
  -- The induction is on the room above the position, which every step shortens.
  obtain ⟨room, above⟩ : ∃ room, h.tablesize - probeOf s h key c ≤ room := ⟨_, Nat.le_refl _⟩
  induction room generalizing c with
  | zero =>
    have inside := sized.probeOf_lt s key c
    omega
  | succ room further =>
    have inside := sized.probeOf_lt s key c
    have odd := sized.odd
    have long : h.tablesize < 2 * (c + 1) - 1 := by
      unfold half at high
      omega
    have step : ∀ fuel, findLoop h key (fuel + 1) (probeOf s h key c) c = findLoop h key fuel
        (probeOf s h key c + (2 * (c + 1) - 1) - h.tablesize) (c + 1) := by
      intro fuel
      rw [findLoop, if_neg (Nat.not_le.mpr inside), if_pos (passes c)]
      simp only [if_pos (show h.tablesize ≤ probeOf s h key c + (2 * (c + 1) - 1) by omega)]
    by_cases out : h.tablesize ≤ probeOf s h key c + (2 * (c + 1) - 1) - h.tablesize
    · refine ⟨2, probeOf s h key c + (2 * (c + 1) - 1) - h.tablesize, (step 1).trans ?_⟩
      rw [findLoop, if_pos out]
    · have next : probeOf s h key (c + 1) =
          probeOf s h key c + (2 * (c + 1) - 1) - h.tablesize := by
        have wraps : h.tablesize ≤ probeOf s h key c + (2 * (c + 1) - 1) := by omega
        rw [probeOf, probe_succ, ← probeOf, Nat.mod_eq_sub_mod wraps, Nat.mod_eq_of_lt (by omega)]
      obtain ⟨fuel, pos, looked⟩ := further (c := c + 1) (by omega) (by omega)
      exact ⟨fuel + 1, pos, by rw [step, ← next, looked]⟩

/-- A look-up that cannot stop at one of the distinct probes reads outside of the table. -/
theorem find_outside (sized : Sized h) (never : ¬ Stoppable s h key) :
    ∃ fuel pos, find s fuel h key = .outside pos := by
  have passesLow : ∀ i ≤ half h, Passes h key (probeOf s h key i) := by
    intro i low
    by_contra stops
    exact never (stoppable_iff.mpr ⟨i, low, stops⟩)
  have passes : ∀ n, Passes h key (probeOf s h key n) := by
    intro n
    obtain ⟨m, low, same⟩ := probe_reduce sized.odd (s.hash key h.tablesize) n
    rw [probeOf, same]
    exact passesLow m low
  obtain ⟨fuel, pos, looked⟩ := findLoop_outside sized (Nat.lt_succ_self (half h)) passes
  refine ⟨fuel + (half h + 1), pos, ?_⟩
  rw [findLoop_probes sized (Nat.le_refl _) fun j _ => passes j, looked]

/-- A look-up returns exactly when one of the distinct probes of its key lets it stop. -/
theorem find_ends_iff (sized : Sized h) :
    (∃ fuel pos, find s fuel h key = .ends pos) ↔ Stoppable s h key := by
  constructor
  · rintro ⟨fuel, pos, ends⟩
    by_contra never
    obtain ⟨fuel', pos', out⟩ := find_outside sized never
    cases find_unique ends out (by simp) (by simp)
  · intro stop
    obtain ⟨i, -, -, -, ends⟩ := exists_find_ends sized (stoppable_iff.mp stop)
    exact ⟨half h + 1, _, ends _ (Nat.lt_succ_self _)⟩

end Outside

/-! ## Sequences of calls -/

section Calls

variable {s : Hashing α} {h h' : Table α} {call : Call α} {fuel fuel' : Nat}

/-- A call returns exactly when its look-up does. -/
theorem perform_isSome : (∃ h', perform s fuel h call = some h') ↔
    ∃ pos, find s fuel h call.key = .ends pos := by
  cases call with
  | insert key =>
    simp only [perform, insert, Call.key]
    cases find s fuel h key with
    | ends pos => by_cases fresh : (h.thecells pos).info ≠ .legitimate <;> simp [fresh]
    | outside pos => simp
    | unfinished => simp
  | find key =>
    simp only [perform, Call.key]
    cases find s fuel h key with
    | ends pos => simp
    | outside pos => simp
    | unfinished => simp

/-- A call does what its look-up lets it do, whatever the fuel. -/
theorem perform_unique {h1 h2 : Table α} (performed : perform s fuel h call = some h1)
    (performed' : perform s fuel' h call = some h2) : h1 = h2 := by
  obtain ⟨pos, ends⟩ := perform_isSome.mp ⟨h1, performed⟩
  obtain ⟨pos', ends'⟩ := perform_isSome.mp ⟨h2, performed'⟩
  have same : find s fuel h call.key = find s fuel' h call.key := by
    rw [ends, ends']
    exact find_unique ends ends' (by simp) (by simp)
  have equal : perform s fuel h call = perform s fuel' h call := by
    cases call with
    | insert key =>
      simp only [Call.key] at same
      simp only [perform, insert, same]
    | find key =>
      simp only [Call.key] at same
      simp only [perform, same]
  rw [performed, performed'] at equal
  exact Option.some.inj equal

/-- Calls keep the size of the table. -/
theorem Sized.perform (sized : Sized h) (performed : perform s fuel h call = some h') :
    Sized h' := by
  cases call with
  | insert key => exact sized.insert performed
  | find key =>
    simp only [HashQuad.perform] at performed
    cases look : HashQuad.find s fuel h key with
    | ends pos =>
      rw [look] at performed
      rw [← Option.some.inj performed]
      exact sized
    | outside pos => simp [look] at performed
    | unfinished => simp [look] at performed

/-- The look-ups of a sequence of calls all return exactly when each of them can stop. -/
theorem completes_iff (sized : Sized h) (calls : List (Call α)) :
    Completes s h calls ↔ StoppableThroughout s h calls := by
  induction calls generalizing h with
  | nil => exact Iff.rfl
  | cons call calls rest =>
    constructor
    · rintro ⟨fuel, h', performed, completes⟩
      obtain ⟨pos, ends⟩ := perform_isSome.mp ⟨h', performed⟩
      refine ⟨(find_ends_iff sized).mp ⟨fuel, pos, ends⟩, fun fuel2 h2 performed2 => ?_⟩
      rw [← perform_unique performed performed2]
      exact (rest (sized.perform performed)).mp completes
    · rintro ⟨stop, onwards⟩
      obtain ⟨fuel, pos, ends⟩ := (find_ends_iff sized).mpr stop
      obtain ⟨h', performed⟩ := perform_isSome.mpr ⟨pos, ends⟩
      exact ⟨fuel, h', performed,
        (rest (sized.perform performed)).mpr (onwards fuel h' performed)⟩

/-- When a sequence of calls completes, so does its last call after the others. -/
theorem Completes.last {calls : List (Call α)} (completes : Completes s h (calls ++ [call]))
    (ran : calls.foldlM (HashQuad.perform s fuel) h = some h') : Completes s h' [call] := by
  induction calls generalizing h with
  | nil => rwa [← Option.some.inj ran]
  | cons first calls rest =>
    rw [List.foldlM_cons, Option.bind_eq_bind, Option.bind_eq_some_iff] at ran
    obtain ⟨h1, performed1, ran1⟩ := ran
    obtain ⟨_, h2, performed2, completes2⟩ := completes
    rw [perform_unique performed2 performed1] at completes2
    exact rest completes2 ran1

/-- In a table that `initialize_table` made, the look-ups of a sequence of calls all end and stay
inside of the table exactly when every call meets an empty cell or its key among the distinct
probes of the key. -/
theorem probing_in_range_iff (s : Hashing α) (memory : Nat → Cell α) (n : Nat) (h : Table α)
    (made : initializeTable s memory n = some h) (calls : List (Call α)) :
    Completes s h calls ↔ StoppableThroughout s h calls :=
  completes_iff (initializeTable_spec made).1 calls

/-- A key that is inserted twice into a table of three cells. -/
theorem probing_in_range_twice :
    Completes remainder (newTable 3) [.insert 4, .insert 4] := by
  refine (probing_in_range_iff remainder _ 3 (newTable 3)
    (initializeTable_prime Nat.prime_three (by decide)) _).mpr ⟨⟨0, by decide, .inl (by decide)⟩,
      fun fuel h performed => ⟨⟨0, Nat.zero_le _, .inr ?_⟩, fun _ _ _ => trivial⟩⟩
  have once : (perform remainder 1 (newTable 3) (.insert 4)).map
      (fun h => (h.thecells (probeOf remainder h 4 0)).element) = some 4 := by decide +kernel
  obtain ⟨h1, performed1, element⟩ := Option.map_eq_some_iff.mp once
  rw [perform_unique performed performed1]
  exact element

/-- The calls that fill the distinct probes of the key 11 in a table of eleven cells. -/
def fillProbes : List (Call Nat) :=
  [.insert 0, .insert 1, .insert 3, .insert 4, .insert 5, .insert 9]

/-- With six of its eleven cells used, a table is left by a look-up: it reads cell 15. -/
theorem probing_leaves_table :
    initializeTable remainder (fun _ => ⟨0, .deleted⟩) 11 = some (newTable 11) ∧
      (fillProbes.foldlM (perform remainder 1) (newTable 11)).map
        (fun h => find remainder 10 h 11) = some (.outside 15) ∧
      ¬ Completes remainder (newTable 11) (fillProbes ++ [.find 11]) := by
  have reads : (fillProbes.foldlM (perform remainder 1) (newTable 11)).map
      (fun h => find remainder 10 h 11) = some (.outside 15) := by decide +kernel
  refine ⟨initializeTable_prime (by decide) (by decide), reads, fun completes => ?_⟩
  obtain ⟨h, ran, out⟩ := Option.map_eq_some_iff.mp reads
  obtain ⟨fuel, h', performed, -⟩ := completes.last ran
  obtain ⟨pos, ends⟩ := perform_isSome.mp ⟨h', performed⟩
  cases find_unique ends out (by simp) (by simp)

end Calls

end CodeLearning.HashQuad
