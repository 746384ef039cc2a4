import CodeLearning.Lib.FileProgram

/-!
# Lock order

Every byte of every file has a rank. A program is `Ordered` when each lock it asks for ranks
above all it holds, and when it holds none at the marks that ask for that. What it reads does
not matter, so the notion follows the tree of the program alone. In a pool of ordered
programs no processes wait for each other in a circle (`ordered_no_cycle`).
-/

namespace CodeLearning

namespace FileProgram

/-- Locks of one process. -/
abbrev Table (F : Type) := F → Nat → Option LockMode

namespace Table

variable {F N : Type} [DecidableEq F]

/-- No lock at all. -/
def empty : Table F := fun _ _ => none

/-- The mode on a range is set. -/
def set (held : Table F) (file : F) (range : Range) (mode : Option LockMode) : Table F :=
  fun f b => if f = file ∧ range.Contains b then mode else held f b

/-- The locks after a call. -/
def after (held : Table F) : Op F N → Table F
  | .lock file mode range => held.set file range (some mode)
  | .unlock file range => held.set file range none
  | _ => held

/-- Dropping a lock on bytes that were free before it was taken. -/
theorem set_set_none {held : Table F} {file : F} {range : Range} {mode : Option LockMode}
    (free : ∀ b, range.Contains b → held file b = none) :
    (held.set file range mode).set file range none = held := by
  funext f b
  unfold set
  split
  · rename_i inside
    rw [inside.1, free b inside.2]
  · rfl

end Table

section Ordered

variable {P F E N α β : Type} [DecidableEq P] [DecidableEq F] {rank : F → Nat → Nat}
  {clear : N → Prop} {held : Table F}

/-- A call keeps the order of locks. -/
def InOrder (rank : F → Nat → Nat) (clear : N → Prop) (held : Table F) : Op F N → Prop
  | .lock file _ range =>
    ∀ b, range.Contains b → ∀ f b', held f b' ≠ none → rank f b' < rank file b
  | .note mark => clear mark → held = Table.empty
  | _ => True

/-- Every call of the program keeps the order of locks, whatever it reads. -/
def Ordered (rank : F → Nat → Nat) (clear : N → Prop) :
    Prog F E N α → (α → Table F → Prop) → Table F → Prop
  | .ret value, post, held => post value held
  | .abort _, _, _ => True
  | .hang, _, _ => True
  | .op call rest, post, held =>
    InOrder rank clear held call ∧
      ∀ answer, Ordered rank clear (rest answer) post (held.after call)

/-- A sequence is ordered when its parts are. -/
theorem ordered_bind {prog : Prog F E N α} {f : α → Prog F E N β} {post : β → Table F → Prop}
    (ordered : Ordered rank clear prog (fun value => Ordered rank clear (f value) post) held) :
    Ordered rank clear (prog >>= f) post held := by
  induction prog generalizing held with
  | ret value => exact ordered
  | abort failure => trivial
  | hang => trivial
  | op call rest step => exact ⟨ordered.1, fun answer => step answer (ordered.2 answer)⟩

/-- Weaker postcondition. -/
theorem ordered_mono {prog : Prog F E N α} {post post' : α → Table F → Prop}
    (ordered : Ordered rank clear prog post held)
    (weaker : ∀ value held, post value held → post' value held) :
    Ordered rank clear prog post' held := by
  induction prog generalizing held with
  | ret value => exact weaker value held ordered
  | abort failure => trivial
  | hang => trivial
  | op call rest step => exact ⟨ordered.1, fun answer => step answer (ordered.2 answer)⟩

/-! ## Pools -/

/-- Process `p` waits for a lock on a byte of the rank that `q` holds against it. -/
def WaitsAt (rank : F → Nat → Nat) (c : Config P F E N α) (p q : P) (level : Nat) : Prop :=
  ∃ file mode range rest b,
    c.procs p = .running (.op (.lock file mode range) rest) ∧ q ≠ p ∧ range.Contains b ∧
      ¬ mode.Compatible (c.world.locks q file b) ∧ rank file b = level

/-- Process `p` waits for a lock that `q` holds against it. -/
def Waits (c : Config P F E N α) (p q : P) : Prop :=
  ∃ file mode range rest b,
    c.procs p = .running (.op (.lock file mode range) rest) ∧ q ≠ p ∧ range.Contains b ∧
      ¬ mode.Compatible (c.world.locks q file b)

/-- What is left of every process is ordered from the locks it holds. -/
def PoolOrdered (rank : F → Nat → Nat) (clear : N → Prop) (post : α → Table F → Prop)
    (c : Config P F E N α) : Prop :=
  ∀ p prog, c.procs p = .running prog → Ordered rank clear prog post (c.world.locks p)

/-- A call changes the locks of its own process as the table says. -/
theorem locks_act_self (w : World P F N) (p : P) (call : Op F N) :
    (w.act p call).locks p = Table.after (w.locks p) call := by
  cases call with
  | lock file mode range =>
    funext f b
    simp [World.act, World.setLocks, Table.after, Table.set]
  | unlock file range =>
    funext f b
    simp [World.act, World.setLocks, Table.after, Table.set]
  | size file => rfl
  | read file off len => rfl
  | write file off bytes => rfl
  | note mark => rfl

/-- A call changes no locks of other processes. -/
theorem locks_act_other {p q : P} (w : World P F N) (other : q ≠ p) (call : Op F N) :
    (w.act p call).locks q = w.locks q := by
  cases call with
  | lock file mode range =>
    funext f b
    simp [World.act, World.setLocks, other]
  | unlock file range =>
    funext f b
    simp [World.act, World.setLocks, other]
  | size file => rfl
  | read file off len => rfl
  | write file off bytes => rfl
  | note mark => rfl

/-- A process alone that returns has the locks that the order gives it. -/
theorem Ordered.returned {prog : Prog F E N α} {post : α → Table F → Prop} {p : P}
    {w w' : World P F N} {value : α} (ordered : Ordered rank clear prog post (w.locks p))
    (ends : run p prog w = (.returned value, w')) : post value (w'.locks p) := by
  induction prog generalizing w with
  | ret value' =>
    obtain ⟨same, rfl⟩ := Prod.mk.inj ends
    cases same
    exact ordered
  | abort failure => cases ends
  | hang => cases ends
  | op call rest step =>
    apply step _ _ ends
    rw [locks_act_self]
    exact ordered.2 _

variable {post : α → Table F → Prop} {c d : Config P F E N α}

/-- A step of a pool keeps the order. -/
theorem poolOrdered_step (ordered : PoolOrdered rank clear post c) (step : Step c d) :
    PoolOrdered rank clear post d := by
  intro q prog here
  cases step with
  | @act p call rest before enabled =>
    by_cases same : q = p
    · subst same
      simp only [Function.update_self] at here
      cases here
      have mine := ordered q _ before
      rw [locks_act_self]
      exact mine.2 _
    · simp only [Function.update_of_ne same] at here
      rw [locks_act_other _ same]
      exact ordered q prog here
  | @exit p failure before =>
    by_cases same : q = p
    · subst same
      simp only [Function.update_self] at here
      cases here
    · simp only [Function.update_of_ne same] at here
      have locks : (c.world.dropLocks p).locks q = c.world.locks q :=
        Function.update_of_ne same _ _
      rw [locks]
      exact ordered q prog here

/-- A run of a pool keeps the order. -/
theorem poolOrdered_reaches (ordered : PoolOrdered rank clear post c) (reaches : Reaches c d) :
    PoolOrdered rank clear post d := by
  induction reaches with
  | refl => exact ordered
  | tail _ step before => exact poolOrdered_step before step

omit [DecidableEq P] in
/-- A process waited for waits itself at a higher rank only. -/
theorem PoolOrdered.waits_lt (ordered : PoolOrdered rank clear post c) {p q r : P}
    {low high : Nat} (first : WaitsAt rank c p q low) (second : WaitsAt rank c q r high) :
    low < high := by
  obtain ⟨file, mode, range, rest, b, -, -, -, conflict, rfl⟩ := first
  obtain ⟨file', mode', range', rest', b', here, -, inside, -, rfl⟩ := second
  have holds : c.world.locks q file b ≠ none := by
    intro free
    rw [free] at conflict
    exact conflict trivial
  exact (ordered q _ here).1 b' inside file b holds

omit [DecidableEq P] in
/-- No processes of an ordered pool wait for each other in a circle. -/
theorem ordered_no_cycle (ordered : PoolOrdered rank clear post c) (p : P) :
    ¬ Relation.TransGen (Waits c) p p := by
  have leveled : ∀ {p q}, Waits c p q → ∃ level, WaitsAt rank c p q level := by
    rintro p q ⟨file, mode, range, rest, b, here, other, inside, conflict⟩
    exact ⟨rank file b, file, mode, range, rest, b, here, other, inside, conflict, rfl⟩
  -- Along a chain of waits the level of the last wait is at least that of the first.
  have rising : ∀ {p r}, Relation.TransGen (Waits c) p r →
      ∃ low high q q', low ≤ high ∧ WaitsAt rank c p q low ∧ WaitsAt rank c q' r high := by
    intro p r chain
    induction chain with
    | single wait =>
      obtain ⟨level, wait⟩ := leveled wait
      exact ⟨level, level, _, _, Nat.le_refl level, wait, wait⟩
    | tail _ wait before =>
      obtain ⟨low, high, q, q', le, first, last⟩ := before
      obtain ⟨level, wait⟩ := leveled wait
      have lt := ordered.waits_lt last wait
      exact ⟨low, level, q, _, by omega, first, wait⟩
  intro cycle
  obtain ⟨low, high, q, q', le, first, last⟩ := rising cycle
  have lt := ordered.waits_lt last first
  omega

omit [DecidableEq P] in
/-- A process of an ordered pool holds no lock at a mark that asks for that. -/
theorem PoolOrdered.clear_at (ordered : PoolOrdered rank clear post c) {p : P} {mark : N}
    {rest : Unit → Prog F E N α} (here : c.procs p = .running (.op (.note mark) rest))
    (asks : clear mark) : c.world.locks p = Table.empty :=
  (ordered p _ here).1 asks

end Ordered

end FileProgram

end CodeLearning
