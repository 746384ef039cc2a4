import CodeLearning.Lib.LockOrder

/-!
# A process that overtakes another

A run of a pool in which one process stops between two calls, another one makes all of its own,
and then the first goes on. Whether it is a run can be computed: the second process may not need a
lock that the first one holds where it stops, and must drop its own.
-/

namespace CodeLearning

namespace FileProgram

section Calls

variable {P F E N α : Type} [DecidableEq P] [DecidableEq F]

/-- The value of a program that has returned. -/
def Prog.value : Prog F E N α → Option α
  | .ret value => some value
  | _ => none

omit [DecidableEq P] [DecidableEq F] in
/-- A program with a value has returned it. -/
theorem Prog.eq_ret {prog : Prog F E N α} {value : α} (returned : prog.value = some value) :
    prog = .ret value := by
  cases prog with
  | ret value' =>
    cases returned
    rfl
  | abort failure => cases returned
  | hang => cases returned
  | op call rest => cases returned

/-- What is left of a program after `n` calls, or when it ends before, and the world then. -/
def advance (p : P) : Nat → Prog F E N α → World P F N → Prog F E N α × World P F N
  | n + 1, .op call rest, w => advance p n (rest (w.answer call)) (w.act p call)
  | _, prog, w => (prog, w)

/-- A lock that is taken or dropped. -/
abbrev Relock (F : Type) := F × Range × Option LockMode

/-- What a call does to the locks of its process. -/
def Op.relocks : Op F N → List (Relock F)
  | .lock file mode range => [(file, range, some mode)]
  | .unlock file range => [(file, range, none)]
  | _ => []

/-- What the next `n` calls of a program do to them. -/
def relocks (p : P) : Nat → Prog F E N α → World P F N → List (Relock F)
  | n + 1, .op call rest, w => call.relocks ++ relocks p n (rest (w.answer call)) (w.act p call)
  | _, _, _ => []

/-- The ranges that stay locked when a process that has locked some takes and drops locks. -/
def heldAfter (held : List (F × Range)) : List (Relock F) → List (F × Range)
  | [] => held
  | (file, range, some _) :: changes => heldAfter ((file, range) :: held) changes
  | (file, range, none) :: changes => heldAfter (held.filter (· ≠ (file, range))) changes

/-- Only bytes of these ranges are locked. -/
def LockedWithin (held : List (F × Range)) (table : Table F) : Prop :=
  ∀ file b, table file b ≠ none → ∃ range, (file, range) ∈ held ∧ range.Contains b

/-- Two ranges have no byte in common. -/
def Range.Apart (first second : Range) : Prop :=
  (first.len ≠ 0 ∧ first.start + first.len ≤ second.start) ∨
    (second.len ≠ 0 ∧ second.start + second.len ≤ first.start)

/-- Whether two ranges are apart can be decided. -/
instance (first second : Range) : Decidable (first.Apart second) :=
  inferInstanceAs (Decidable (_ ∨ _))

/-- A byte of a range is not in one apart from it. -/
theorem Range.Apart.not_contains {first second : Range} (apart : first.Apart second) {b : Nat}
    (inside : first.Contains b) : ¬ second.Contains b := by
  obtain ⟨low, high⟩ := inside
  rintro ⟨low', high'⟩
  rcases apart with before | after
  · omega
  · omega

variable {p q : P} {n m k : Nat} {prog : Prog F E N α} {w : World P F N}
  {held : List (F × Range)} {table : Table F} {c : Config P F E N α}

/-- One call leaves locked what it says. -/
theorem LockedWithin.after (within : LockedWithin held table) (call : Op F N) :
    LockedWithin (heldAfter held call.relocks) (table.after call) := by
  cases call with
  | lock file mode range =>
    intro f b locked
    by_cases here : f = file ∧ range.Contains b
    · exact ⟨range, here.1 ▸ List.mem_cons_self, here.2⟩
    · have before : table f b ≠ none := by
        intro free
        exact locked ((if_neg here).trans free)
      obtain ⟨range', mem, inside⟩ := within f b before
      exact ⟨range', List.mem_cons_of_mem _ mem, inside⟩
  | unlock file range =>
    intro f b locked
    have outside : ¬ (f = file ∧ range.Contains b) := fun here => locked (if_pos here)
    have before : table f b ≠ none := by
      intro free
      exact locked ((if_neg outside).trans free)
    obtain ⟨range', mem, inside⟩ := within f b before
    refine ⟨range', List.mem_filter.mpr ⟨mem, decide_eq_true ?_⟩, inside⟩
    intro same
    cases same
    exact outside ⟨rfl, inside⟩
  | size file => exact within
  | read file off len => exact within
  | write file off bytes => exact within
  | note mark => exact within

/-- Locks are taken and dropped in two parts. -/
theorem heldAfter_append (first second : List (Relock F)) :
    heldAfter held (first ++ second) = heldAfter (heldAfter held first) second := by
  induction first generalizing held with
  | nil => rfl
  | cons change first rest =>
    obtain ⟨file, range, _ | mode⟩ := change
    · exact rest
    · exact rest

/-- Calls leave locked what they say. -/
theorem LockedWithin.advance (within : LockedWithin held (w.locks p)) :
    LockedWithin (heldAfter held (relocks p n prog w)) ((advance p n prog w).2.locks p) := by
  induction n generalizing prog w held with
  | zero => exact within
  | succ n rest =>
    cases prog with
    | op call next =>
      rw [relocks, heldAfter_append]
      apply rest
      rw [locks_act_self]
      exact within.after call
    | ret value => exact within
    | abort failure => exact within
    | hang => exact within

/-- Calls leave the locks of the other processes. -/
theorem locks_advance_other (other : q ≠ p) : (advance p n prog w).2.locks q = w.locks q := by
  induction n generalizing prog w with
  | zero => rfl
  | succ n rest =>
    cases prog with
    | op call next => exact rest.trans (locks_act_other w other call)
    | ret value => rfl
    | abort failure => rfl
    | hang => rfl

/-- A process makes `n` calls in a row when none of them needs a lock that another one holds. -/
theorem reaches_advance (here : c.procs p = .running prog)
    (clear : ∀ file range mode, (file, range, some mode) ∈ relocks p n prog c.world →
      ∀ q, q ≠ p → ∀ b, range.Contains b → c.world.locks q file b = none) :
    Reaches c
      { world := (advance p n prog c.world).2
        procs := Function.update c.procs p (.running (advance p n prog c.world).1) } := by
  have stays : Reaches c { c with procs := Function.update c.procs p (.running prog) } := by
    rw [← here, Function.update_eq_self]
  induction n generalizing c prog with
  | zero => exact stays
  | succ n rest =>
    cases prog with
    | op call next =>
      have enabled : c.world.Enabled p call := by
        cases call with
        | lock file mode range =>
          intro q other b inside
          rw [clear file range mode (List.mem_append_left _ List.mem_cons_self) q other b inside]
          cases mode with
          | read => trivial
          | write => trivial
        | _ => trivial
      let d : Config P F E N α :=
        { world := c.world.act p call
          procs := Function.update c.procs p (.running (next (c.world.answer call))) }
      have there : d.procs p = .running (next (c.world.answer call)) := Function.update_self _ _ _
      have later := rest there (by
        intro file range mode mem q other b inside
        show (c.world.act p call).locks q file b = none
        rw [locks_act_other c.world other]
        exact clear file range mode (List.mem_append_right _ mem) q other b inside) (by
        rw [← there, Function.update_eq_self])
      rw [Function.update_idem] at later
      exact .head (.act p here enabled) later
    | ret value => exact stays
    | abort failure => exact stays
    | hang => exact stays

/-- Of two processes, the first makes `n` calls, then the second `m`, and then the first `k` more:
what is left of each program, and the world then. -/
def overtake (p q : P) (n m k : Nat) (first second : Prog F E N α) (w : World P F N) :
    Prog F E N α × Prog F E N α × World P F N :=
  let halfway := advance p n first w
  let overtaker := advance q m second halfway.2
  let further := advance p k halfway.1 overtaker.2
  (further.1, overtaker.1, further.2)

/-- The second process takes no lock that the first one holds then, and drops all its locks. -/
def MayOvertake (p q : P) (n m : Nat) (first second : Prog F E N α) (w : World P F N) : Prop :=
  (∀ change ∈ relocks q m second (advance p n first w).2, change.2.2 ≠ none →
      ∀ held ∈ heldAfter [] (relocks p n first w), held.1 = change.1 → change.2.1.Apart held.2) ∧
    heldAfter [] (relocks q m second (advance p n first w).2) = []

/-- Whether a process may overtake another one can be decided. -/
instance {first second : Prog F E N α} : Decidable (MayOvertake p q n m first second w) :=
  inferInstanceAs (Decidable (_ ∧ _))

/-- A process overtakes another one where it may, when no process holds a lock at first. -/
theorem reaches_overtake {first second : Prog F E N α} (k : Nat) (other : q ≠ p)
    (here : c.procs p = .running first) (there : c.procs q = .running second)
    (idle : ∀ r file b, c.world.locks r file b = none)
    (may : MayOvertake p q n m first second c.world) :
    Reaches c
      { world := (overtake p q n m k first second c.world).2.2
        procs := Function.update
          (Function.update c.procs p (.running (overtake p q n m k first second c.world).1))
          q (.running (overtake p q n m k first second c.world).2.1) } := by
  obtain ⟨apart, released⟩ := may
  have nothing : ∀ r, LockedWithin [] (c.world.locks r) := fun r file b locked =>
    absurd (idle r file b) locked
  have goes := reaches_advance (n := n) here fun file range mode _ r _ b _ => idle r file b
  let halfway : Config P F E N α :=
    { world := (advance p n first c.world).2
      procs := Function.update c.procs p (.running (advance p n first c.world).1) }
  have waits : halfway.procs q = .running second := (Function.update_of_ne other _ _).trans there
  -- The second process meets only locks of the first one, which are apart from its own.
  have overtakes := reaches_advance (n := m) waits fun file range mode mem r differ b inside => by
    show (advance p n first c.world).2.locks r file b = none
    by_cases mine : r = p
    · by_contra locked
      rw [mine] at locked
      obtain ⟨range', mem', inside'⟩ := (nothing p).advance file b locked
      exact (apart _ mem (by simp) _ mem' rfl).not_contains inside inside'
    · rw [locks_advance_other mine]
      exact idle r file b
  let overtaken : Config P F E N α :=
    { world := (advance q m second halfway.world).2
      procs := Function.update halfway.procs q (.running (advance q m second halfway.world).1) }
  have continues : overtaken.procs p = .running (advance p n first c.world).1 :=
    (Function.update_of_ne other.symm _ _).trans (Function.update_self _ _ _)
  have unlocked : halfway.world.locks q = c.world.locks q := locks_advance_other other
  have start : LockedWithin [] (halfway.world.locks q) := by
    rw [unlocked]
    exact nothing q
  -- The first process meets no lock, since the second one has dropped its own.
  have further := reaches_advance (n := k) continues fun file range mode _ r differ b _ => by
    show (advance q m second halfway.world).2.locks r file b = none
    by_cases mine : r = q
    · by_contra locked
      rw [mine] at locked
      obtain ⟨range', mem', -⟩ := start.advance file b locked
      rw [released] at mem'
      cases mem'
    · have same : halfway.world.locks r = c.world.locks r := locks_advance_other differ
      rw [locks_advance_other mine, same]
      exact idle r file b
  have all := (goes.trans overtakes).trans further
  rwa [Function.update_comm other, Function.update_idem] at all

end Calls

end FileProgram

end CodeLearning
