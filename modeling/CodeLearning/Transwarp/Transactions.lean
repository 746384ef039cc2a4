import CodeLearning.Transwarp.Nesting
import Mathlib.Logic.Relation

/-!
# Transactions of transwarp

Only the outermost transaction block commits or rolls back. When it is left by an exception, none
of the updates executed inside it is ever committed; when it is left normally, all of them are
committed together, also those of an inner block that an exception left and whose exception was
caught.
-/

namespace CodeLearning.Transwarp

/-! ## Where updates go -/

/-- An effect on the connection and the updates. -/
inductive Effect (w w' : World) : Prop where
  /-- The updates stay where they are. -/
  | still (executed : w'.executed = w.executed) (pending : w'.pending = w.pending)
      (committed : w'.committed = w.committed)
      (connection : ∀ id, w.connection = some (some id) → w'.connection = some (some id))
  /-- The pending updates of the connection are lost. -/
  | lose (id : Nat) (here : w.connection = some (some id)) (executed : w'.executed = w.executed)
      (pending : w'.pending = Function.update w.pending id [])
      (committed : w'.committed = w.committed)
  /-- The pending updates of the connection are committed. -/
  | take (id : Nat) (here : w.connection = some (some id)) (executed : w'.executed = w.executed)
      (pending : w'.pending = Function.update w.pending id [])
      (committed : w'.committed = w.committed ++ [w.pending id])
  /-- A new update is pending on the connection. -/
  | add (id : Nat) (here : w.connection = some (some id)) (executed : w'.executed = w.executed + 1)
      (pending : w'.pending = Function.update w.pending id (w.pending id ++ [w.executed]))
      (committed : w'.committed = w.committed) (connection : w'.connection = w.connection)

/-- Effects one after the other. -/
abbrev Effects : World → World → Prop := Relation.ReflTransGen Effect

section Effects

variable {w w' : World}

/-- `cursor` opens a connection at most. -/
theorem cursor_effect (w : World) (faults : Faults) : Effect w (cursor w faults).1 := by
  unfold cursor
  split
  · exact .still rfl rfl rfl fun _ here => here
  · exact .still rfl rfl rfl fun _ here => here
  · rename_i lazy
    split
    · exact .still rfl rfl rfl fun _ here => here
    · exact .still rfl rfl rfl fun id here => by simp [lazy] at here

/-- `commit` takes what is pending. -/
theorem commit_effect (w : World) (faults : Faults) : Effect w (commit w faults).1 := by
  unfold commit
  split
  · rename_i id here
    split
    · exact .still rfl rfl rfl fun _ here => here
    · exact .take id here rfl rfl rfl
  · exact .still rfl rfl rfl fun _ here => here

/-- `rollback` loses what is pending. -/
theorem rollback_effect (w : World) (faults : Faults) : Effect w (rollback w faults).1 := by
  unfold rollback
  split
  · rename_i id here
    split
    · exact .still rfl rfl rfl fun _ here => here
    · exact .lose id here rfl rfl rfl
  · exact .still rfl rfl rfl fun _ here => here

/-- `cleanup` loses what is pending. -/
theorem cleanup_effect (w : World) : Effect w (cleanup w).1 := by
  unfold cleanup
  split
  · exact .still rfl rfl rfl fun _ here => here
  · rename_i lazy
    exact .still rfl rfl rfl fun id here => by simp [lazy] at here
  · rename_i id here
    exact .lose id here rfl rfl rfl

/-- `__enter__` finds no connection when the context is not initialised. -/
theorem ensureInit_effect (w : World) : Effect w (ensureInit w).1 := by
  unfold ensureInit
  split
  · rename_i uninitialised
    exact .still rfl rfl rfl fun id here => by simp [uninitialised] at here
  · exact .still rfl rfl rfl fun _ here => here

/-- The number of transactions does not matter for updates. -/
theorem transactions_effect (w : World) (transactions : Int) :
    Effect w { w with transactions := transactions } :=
  .still rfl rfl rfl fun _ here => here

/-- An update becomes pending and may be committed. -/
theorem executeUpdate_effects (w : World) (faults : Faults) :
    Effects w (executeUpdate w faults).1 := by
  unfold executeUpdate
  split
  · rename_i id here
    have adds : Effect w (execute w id) := .add id here rfl rfl rfl rfl
    split
    · exact .refl
    · split
      · exact (Relation.ReflTransGen.single adds).tail (commit_effect _ faults)
      · exact .single adds
  · exact .refl

/-- The effects of a statement. -/
theorem statement_effects (w : World) (s : Statement) (faults : Faults) :
    Effects w (statement w s faults).1 := by
  have opens : Effects w (cursor w faults).1 := .single (cursor_effect w faults)
  unfold statement
  dsimp only
  split
  · exact opens
  · cases s with
    | select => exact opens
    | update => exact opens.trans (executeUpdate_effects _ faults)

/-- The effects of `__exit__` of a transaction, before its `finally`. -/
theorem endTransaction_effects (w : World) (raised : Bool) (faults : Faults) :
    Effects w (endTransaction w raised faults).1 := by
  unfold endTransaction
  split
  · split
    · exact .single (rollback_effect w faults)
    · have commits : Effects w (commit w faults).1 := .single (commit_effect w faults)
      unfold commitTransaction
      dsimp only
      split
      · exact commits.tail (rollback_effect _ faults)
      · exact commits
  · exact .refl

/-- The effects of executing the first part of a program. -/
theorem start_effects (w : World) (stack : List Frame) (prog : Prog) :
    Effects w (start w stack prog).world := by
  have enters : Effects w (ensureInit w).1 := .single (ensureInit_effect w)
  cases prog with
  | skip | raise | seq _ _ | tryExcept _ _ => exact .refl
  | connection _ | sql _ => exact enters
  | transaction _ => exact enters.tail (transactions_effect _ _)

/-- The effects of leaving a frame. -/
theorem leave_effects (w : World) (raised : Bool) (faults : Faults) (stack : List Frame)
    (frame : Frame) : Effects w (leave w raised faults stack frame).world := by
  cases frame with
  | rest _ | handler _ => exact .refl
  | connection flag =>
    show Effects w (exitConnection w flag).1
    unfold exitConnection
    split
    · exact .single (cleanup_effect w)
    · exact .refl
  | transaction flag _ =>
    have fewer := transactions_effect w (w.transactions - 1)
    have ends := (Relation.ReflTransGen.single fewer).trans
      (endTransaction_effects { w with transactions := w.transactions - 1 } raised faults)
    show Effects w (exitTransaction w flag raised faults).1
    unfold exitTransaction
    dsimp only
    split
    · exact ends.tail (cleanup_effect _)
    · exact ends

/-- The effects of a step. -/
theorem step_effects (c : Config) (faults : Faults) : Effects c.world (step c faults).world := by
  obtain ⟨code, stack, w⟩ := c
  cases code with
  | exec prog => exact start_effects w stack prog
  | body s => exact statement_effects w s faults
  | done =>
    cases stack with
    | nil => exact .refl
    | cons frame stack => exact leave_effects w false faults stack frame
  | raising =>
    cases stack with
    | nil => exact .refl
    | cons frame stack => exact leave_effects w true faults stack frame

/-- The effects of a run. -/
theorem run_effects (c : Config) (faults : List Faults) :
    Effects c.world (run c faults).world := by
  induction faults generalizing c with
  | nil => exact .refl
  | cons first rest more => exact (step_effects c first).trans (more (step c first))

end Effects

/-! ## Pending and lost updates -/

/-- Only the current connection has pending updates, and updates are numbered in order. -/
structure Tidy (w : World) : Prop where
  /-- The other connections have no pending updates. -/
  others : ∀ id, w.connection ≠ some (some id) → w.pending id = []
  /-- A pending update was executed. -/
  pending : ∀ id, ∀ k ∈ w.pending id, k < w.executed
  /-- A committed update was executed. -/
  committed : ∀ batch ∈ w.committed, ∀ k ∈ batch, k < w.executed

/-- An update that is neither pending nor committed. -/
structure Gone (w : World) (k : Nat) : Prop where
  /-- It was executed. -/
  executed : k < w.executed
  /-- It is not pending. -/
  pending : ∀ id, k ∉ w.pending id
  /-- It is not committed. -/
  committed : ∀ batch ∈ w.committed, k ∉ batch

/-- The updates since a number are pending on the current connection. -/
structure Held (since : Nat) (w : World) : Prop where
  /-- They are counted from there. -/
  starts : since ≤ w.executed
  /-- They are pending. -/
  pending : ∀ k, since ≤ k → k < w.executed →
    ∃ id, w.connection = some (some id) ∧ k ∈ w.pending id
  /-- They are not committed. -/
  committed : ∀ k, since ≤ k → ∀ batch ∈ w.committed, k ∉ batch

section Held

variable {w w' : World} {faults : Faults} {since : Nat}

/-- The current connection loses its pending updates. -/
theorem Tidy.dropped (tidy : Tidy w) {id : Nat} (here : w.connection = some (some id))
    (other : Nat) : Function.update w.pending id [] other = [] := by
  by_cases same : other = id
  · rw [same, Function.update_self]
  · rw [Function.update_of_ne same]
    refine tidy.others other ?_
    rw [here]
    simpa using Ne.symm same

/-- An effect keeps updates with the current connection. -/
theorem Tidy.effect (tidy : Tidy w) (effect : Effect w w') : Tidy w' := by
  cases effect with
  | still executed pending committed connection =>
    refine ⟨fun id elsewhere => ?_, ?_, ?_⟩
    · rw [pending]
      exact tidy.others id fun here => elsewhere (connection id here)
    · rw [pending, executed]
      exact tidy.pending
    · rw [committed, executed]
      exact tidy.committed
  | lose id here executed pending committed =>
    refine ⟨fun other _ => ?_, fun other k mem => ?_, ?_⟩
    · rw [pending]
      exact tidy.dropped here other
    · simp [pending, tidy.dropped here] at mem
    · rw [committed, executed]
      exact tidy.committed
  | take id here executed pending committed =>
    refine ⟨fun other _ => ?_, fun other k mem => ?_, fun batch mem k inside => ?_⟩
    · rw [pending]
      exact tidy.dropped here other
    · simp [pending, tidy.dropped here] at mem
    · rw [executed]
      rw [committed, List.mem_append, List.mem_singleton] at mem
      rcases mem with old | rfl
      · exact tidy.committed batch old k inside
      · exact tidy.pending id k inside
  | add id here executed pending committed connection =>
    refine ⟨fun other elsewhere => ?_, fun other k mem => ?_, fun batch mem k inside => ?_⟩
    · rw [connection] at elsewhere
      have apart : other ≠ id := by
        rintro rfl
        exact elsewhere here
      rw [pending, Function.update_of_ne apart]
      exact tidy.others other elsewhere
    · rw [executed]
      rw [pending] at mem
      by_cases same : other = id
      · subst same
        simp only [Function.update_self, List.mem_append, List.mem_singleton] at mem
        rcases mem with old | new
        · exact Nat.lt_succ_of_lt (tidy.pending other k old)
        · omega
      · rw [Function.update_of_ne same] at mem
        exact Nat.lt_succ_of_lt (tidy.pending other k mem)
    · rw [committed] at mem
      rw [executed]
      exact Nat.lt_succ_of_lt (tidy.committed batch mem k inside)

/-- Effects keep updates with the current connection. -/
theorem Tidy.effects (tidy : Tidy w) (effects : Effects w w') : Tidy w' := by
  induction effects with
  | refl => exact tidy
  | tail _ effect before => exact before.effect effect

/-- What is lost stays lost through an effect. -/
theorem Gone.effect {k : Nat} (gone : Gone w k) (effect : Effect w w') : Gone w' k := by
  have dropped : ∀ id other, k ∉ Function.update w.pending id [] other := by
    intro id other
    by_cases same : other = id
    · simp [same]
    · rw [Function.update_of_ne same]
      exact gone.pending other
  cases effect with
  | still executed pending committed _ =>
    exact ⟨executed ▸ gone.executed, pending ▸ gone.pending, committed ▸ gone.committed⟩
  | lose id here executed pending committed =>
    exact ⟨executed ▸ gone.executed, pending ▸ dropped id, committed ▸ gone.committed⟩
  | take id here executed pending committed =>
    refine ⟨executed ▸ gone.executed, pending ▸ dropped id, fun batch mem => ?_⟩
    rw [committed, List.mem_append, List.mem_singleton] at mem
    rcases mem with old | rfl
    · exact gone.committed batch old
    · exact gone.pending id
  | add id here executed pending committed _ =>
    have before := gone.executed
    refine ⟨by omega, fun other mem => ?_, committed ▸ gone.committed⟩
    rw [pending] at mem
    by_cases same : other = id
    · subst same
      simp only [Function.update_self, List.mem_append, List.mem_singleton] at mem
      rcases mem with old | new
      · exact gone.pending other old
      · omega
    · rw [Function.update_of_ne same] at mem
      exact gone.pending other mem

/-- What is lost stays lost. -/
theorem Gone.effects {k : Nat} (gone : Gone w k) (effects : Effects w w') : Gone w' k := by
  induction effects with
  | refl => exact gone
  | tail _ effect before => exact before.effect effect

/-- `cursor` keeps the updates pending. -/
theorem cursor_held (held : Held since w) (faults : Faults) : Held since (cursor w faults).1 := by
  unfold cursor
  split
  · exact held
  · exact held
  · rename_i lazy
    split
    · exact held
    · refine ⟨held.starts, fun k after before => ?_, held.committed⟩
      obtain ⟨id, here, -⟩ := held.pending k after before
      simp [lazy] at here

/-- An update is pending with the others. -/
theorem execute_held (held : Held since w) {id : Nat} (here : w.connection = some (some id)) :
    Held since (execute w id) := by
  refine ⟨Nat.le_succ_of_le held.starts, ?_, held.committed⟩
  intro k after before
  refine ⟨id, here, ?_⟩
  simp only [execute, Function.update_self, List.mem_append, List.mem_singleton] at before ⊢
  by_cases last : k = w.executed
  · exact Or.inr last
  · obtain ⟨other, there, mem⟩ := held.pending k after (by omega)
    obtain rfl := Option.some.inj (Option.some.inj (here.symm.trans there))
    exact Or.inl mem

/-- Inside a transaction an update is not committed. -/
theorem executeUpdate_held (held : Held since w) (inside : w.transactions ≠ 0) (faults : Faults) :
    Held since (executeUpdate w faults).1 := by
  unfold executeUpdate
  split
  · rename_i id here
    split
    · exact held
    · exact execute_held held here
  · exact held

/-- Inside a transaction a statement keeps the updates pending. -/
theorem statement_held (held : Held since w) (inside : w.transactions ≠ 0) (s : Statement)
    (faults : Faults) : Held since (statement w s faults).1 := by
  unfold statement
  dsimp only
  split
  · exact cursor_held held faults
  · cases s with
    | select => exact cursor_held held faults
    | update => exact executeUpdate_held (cursor_held held faults) (by simpa using inside) faults

/-- The number of transactions does not matter for pending updates. -/
theorem Held.transactions (held : Held since w) (transactions : Int) :
    Held since { w with transactions := transactions } :=
  ⟨held.starts, held.pending, held.committed⟩

/-- An inner block keeps an initialised context. -/
theorem ensureInit_eq (initialised : w.connection ≠ none) : (ensureInit w).1 = w := by
  simp [ensureInit, initialised]

/-- No update was executed since now. -/
theorem Held.now (tidy : Tidy w) : Held w.executed w := by
  refine ⟨Nat.le_refl _, fun k after before => by omega, ?_⟩
  intro k after batch mem inside
  have before := tidy.committed batch mem k inside
  omega

/-! ## The outermost transaction -/

/-- How many updates were executed before the outermost open transaction block. -/
def outermostSince : List Frame → Option Nat
  | [] => none
  | .rest _ :: stack => outermostSince stack
  | .handler _ :: stack => outermostSince stack
  | .connection _ :: stack => outermostSince stack
  | .transaction _ since :: stack => some ((outermostSince stack).getD since)

/-- The outermost transaction block is a transaction block. -/
theorem transactionBlocks_ne_zero {stack : List Frame}
    (inside : outermostSince stack = some since) : transactionBlocks stack ≠ 0 := by
  induction stack with
  | nil => simp [outermostSince] at inside
  | cons frame stack rest =>
    cases frame with
    | rest _ | handler _ | connection _ => exact rest inside
    | transaction _ _ => exact Nat.succ_ne_zero _

/-- A thread whose updates since the outermost transaction block are pending. -/
structure Sound (c : Config) : Prop where
  /-- Only the current connection has pending updates. -/
  tidy : Tidy c.world
  /-- It has those of the open transaction. -/
  held : ∀ since, outermostSince c.stack = some since → Held since c.world

/-- Inside a transaction block the context counts it and is initialised. -/
theorem Inv.inside_transaction {c : Config} (inv : Inv c)
    (inside : outermostSince c.stack = some since) :
    c.world.transactions ≠ 0 ∧ c.world.connection ≠ none := by
  have some := transactionBlocks_ne_zero inside
  have more := transactionBlocks_le c.stack
  refine ⟨?_, ?_⟩
  · rw [inv.counted]
    omega
  · intro gone
    have none := inv.initialised.mp gone
    omega

/-- Executing the first part of a program keeps updates pending. -/
theorem start_held {stack : List Frame} {prog : Prog} (inv : Inv ⟨.exec prog, stack, w⟩)
    (sound : Sound ⟨.exec prog, stack, w⟩)
    (inside : outermostSince (start w stack prog).stack = some since) :
    Held since (start w stack prog).world := by
  have entered : ∀ {since}, outermostSince stack = some since → Held since (ensureInit w).1 := by
    intro since around
    rw [ensureInit_eq (inv.inside_transaction around).2]
    exact sound.held since around
  cases prog with
  | skip | raise | seq _ _ | tryExcept _ _ => exact sound.held since inside
  | connection _ | sql _ => exact entered inside
  | transaction _ =>
    have same : (outermostSince stack).getD w.executed = since := Option.some.inj inside
    refine Held.transactions ?_ _
    cases outer : outermostSince stack with
    | some first =>
      rw [outer, Option.getD_some] at same
      exact entered (outer.trans (congrArg some same))
    | none =>
      rw [outer, Option.getD_none] at same
      have unchanged : (ensureInit w).1.executed = w.executed := by
        unfold ensureInit
        split <;> rfl
      rw [← same, ← unchanged]
      exact Held.now (sound.tidy.effect (ensureInit_effect w))

/-- Leaving a frame inside a transaction block keeps updates pending. -/
theorem leave_held {stack : List Frame} {code : Code} {frame : Frame}
    (inv : Inv ⟨code, frame :: stack, w⟩) (sound : Sound ⟨code, frame :: stack, w⟩)
    (raised : Bool) (faults : Faults) (inside : outermostSince stack = some since) :
    Held since (leave w raised faults stack frame).world := by
  have around := transactionBlocks_ne_zero inside
  -- The frame does not clean up, since it is not the outermost block.
  have inner : blocks stack ≠ 0 := by
    have fewer := transactionBlocks_le stack
    omega
  cases frame with
  | rest _ | handler _ => exact sound.held since inside
  | connection flag =>
    have stays : flag = false :=
      Bool.eq_false_iff.mpr fun first => inner (inv.outermost.1.mp first)
    subst stays
    exact sound.held since inside
  | transaction flag mark =>
    have stays : flag = false :=
      Bool.eq_false_iff.mpr fun first => inner (inv.outermost.1.mp first)
    subst stays
    have counted : w.transactions = (transactionBlocks stack + 1 : Nat) := inv.counted
    have joined : w.transactions - 1 ≠ 0 := by omega
    have held : Held since w := by
      refine sound.held since ?_
      simp [outermostSince, inside]
    simp only [leave, exitTransaction, endTransaction, if_neg joined]
    exact held.transactions _

/-- Leaving a frame leaves what is around it. -/
theorem leave_stack (w : World) (raised : Bool) (faults : Faults) (stack : List Frame)
    (frame : Frame) : (leave w raised faults stack frame).stack = stack := by
  cases frame <;> rfl

/-- A step keeps updates pending. -/
theorem step_sound {c : Config} (inv : Inv c) (sound : Sound c) (faults : Faults) :
    Sound (step c faults) := by
  refine ⟨sound.tidy.effects (step_effects c faults), fun since inside => ?_⟩
  obtain ⟨code, stack, w⟩ := c
  cases code with
  | exec prog => exact start_held inv sound inside
  | body s =>
    exact statement_held (sound.held since inside) (inv.inside_transaction inside).1 s faults
  | done =>
    cases stack with
    | nil => exact sound.held since inside
    | cons frame stack =>
      have around : outermostSince stack = some since := by
        rwa [step, leave_stack] at inside
      exact leave_held inv sound false faults around
  | raising =>
    cases stack with
    | nil => exact sound.held since inside
    | cons frame stack =>
      have around : outermostSince stack = some since := by
        rwa [step, leave_stack] at inside
      exact leave_held inv sound true faults around

/-- A run keeps updates pending. -/
theorem run_sound {c : Config} (inv : Inv c) (sound : Sound c) (faults : List Faults) :
    Sound (run c faults) := by
  induction faults generalizing c with
  | nil => exact sound
  | cons first rest more => exact more (step_inv inv first) (step_sound inv sound first)

/-- A new thread has executed no updates. -/
theorem begin_sound (prog : Prog) : Sound (begin prog) :=
  ⟨⟨by simp [begin], by simp [begin], by simp [begin]⟩, by simp [begin, outermostSince]⟩

/-! ## The end of the outermost transaction -/

/-- When nothing is pending any more, the updates of the transaction are lost. -/
theorem Held.gone (held : Held since w) (executed : w'.executed = w.executed)
    (committed : w'.committed = w.committed) (pending : ∀ id, w'.pending id = []) (k : Nat)
    (after : since ≤ k) (before : k < w.executed) : Gone w' k := by
  refine ⟨executed ▸ before, ?_, ?_⟩
  · intro id
    simp [pending id]
  · rw [committed]
    exact held.committed k after

/-- `rollback` loses the updates of the transaction. -/
theorem rollback_gone (held : Held since w) (tidy : Tidy w) (works : faults.rollback = false)
    (k : Nat) (after : since ≤ k) (before : k < w.executed) : Gone (rollback w faults).1 k := by
  obtain ⟨id, here, -⟩ := held.pending k after before
  simp only [rollback, here, works, Bool.false_eq_true, if_false]
  refine held.gone ?_ ?_ (tidy.dropped here) k after before
  · rfl
  · rfl

/-- A commit that fails changes no update. -/
theorem commit_failed (failed : (commit w faults).2 = true) :
    (commit w faults).1.executed = w.executed ∧ (commit w faults).1.pending = w.pending ∧
      (commit w faults).1.committed = w.committed := by
  unfold commit at failed ⊢
  split
  · split
    · exact ⟨rfl, rfl, rfl⟩
    · simp_all
  · exact ⟨rfl, rfl, rfl⟩

/-- A commit that does not fail takes the updates of the transaction. -/
theorem commit_together (held : Held since w) (fine : (commit w faults).2 = false) :
    ∃ batch, (commit w faults).1.committed = w.committed ++ [batch] ∧
      ∀ k, since ≤ k → k < w.executed → k ∈ batch := by
  unfold commit at fine ⊢
  split
  · rename_i id here
    split
    · simp_all
    · refine ⟨w.pending id, rfl, fun k after before => ?_⟩
      obtain ⟨other, there, mem⟩ := held.pending k after before
      obtain rfl := Option.some.inj (Option.some.inj (here.symm.trans there))
      exact mem
  · simp_all

/-- The outermost transaction ends: an exception loses its updates, else one commit takes them. -/
theorem endTransaction_ends (held : Held since w) (tidy : Tidy w) (works : faults.rollback = false)
    (outermost : w.transactions = 0) (raised : Bool) :
    ((raised || (endTransaction w raised faults).2) = true →
      ∀ k, since ≤ k → k < w.executed → Gone (endTransaction w raised faults).1 k) ∧
    ((raised || (endTransaction w raised faults).2) = false →
      ∃ batch, (endTransaction w raised faults).1.committed = w.committed ++ [batch] ∧
        ∀ k, since ≤ k → k < w.executed → k ∈ batch) := by
  cases raised with
  | true =>
    have rolls : endTransaction w true faults = rollback w faults := by
      simp [endTransaction, outermost]
    rw [rolls]
    exact ⟨fun _ => rollback_gone held tidy works, by simp⟩
  | false =>
    have commits : endTransaction w false faults = commitTransaction w faults := by
      simp [endTransaction, outermost]
    rw [commits, Bool.false_or]
    unfold commitTransaction
    cases failed : (commit w faults).2 with
    | true =>
      obtain ⟨executed, pending, committed⟩ := commit_failed failed
      have still : Held since (commit w faults).1 := by
        refine ⟨executed ▸ held.starts, ?_, committed ▸ held.committed⟩
        rw [executed, pending, commit_connection]
        exact held.pending
      refine ⟨fun _ k after before => ?_, by simp [failed]⟩
      simp only [failed, if_true]
      have tidy' := tidy.effect (commit_effect w faults)
      exact rollback_gone still tidy' works k after (executed ▸ before)
    | false =>
      simp only [failed, Bool.false_eq_true, if_false]
      exact ⟨by simp, fun _ => commit_together held failed⟩

/-- None of the updates with numbers from `since` to `executed` is in a commit of any later
state. -/
def NeverCommitted (c : Config) (since executed : Nat) : Prop :=
  ∀ later : List Faults, ∀ batch ∈ (run c later).world.committed,
    ∀ k, since ≤ k → k < executed → k ∉ batch

/-- One commit takes all updates since a number. -/
def CommittedTogether (w w' : World) (since : Nat) : Prop :=
  ∃ batch, w'.committed = w.committed ++ [batch] ∧ ∀ k, since ≤ k → k < w.executed → k ∈ batch

/-- Leaving the outermost transaction block. -/
theorem exitTransaction_ends (held : Held since w) (tidy : Tidy w)
    (works : faults.rollback = false) (initialised : w.connection ≠ none)
    (outermost : w.transactions = 1) (flag raised : Bool) :
    ((raised || (exitTransaction w flag raised faults).2) = true →
      ∀ k, since ≤ k → k < w.executed → Gone (exitTransaction w flag raised faults).1 k) ∧
    ((raised || (exitTransaction w flag raised faults).2) = false →
      CommittedTogether w (exitTransaction w flag raised faults).1 since) := by
  have zero : w.transactions - 1 = 0 := by omega
  obtain ⟨lost, together⟩ := endTransaction_ends (held.transactions (w.transactions - 1))
    (tidy.effect (transactions_effect w (w.transactions - 1))) works zero raised
  have kept := (endTransaction_keeps { w with transactions := w.transactions - 1 } raised faults).1
  obtain ⟨fine, -, -, -⟩ := cleanup_spec (kept ▸ initialised)
  unfold exitTransaction
  dsimp only
  cases flag with
  | false => exact ⟨lost, together⟩
  | true =>
    simp only [if_true, fine, Bool.or_false]
    refine ⟨fun exception k after before => (lost exception k after before).effect
      (cleanup_effect _), fun normal => ?_⟩
    obtain ⟨batch, taken, all⟩ := together normal
    refine ⟨batch, ?_, all⟩
    rw [← taken]
    unfold cleanup
    split <;> rfl

/-- When the outermost transaction block is left by an exception, none of the updates executed
inside it, at any depth, is ever committed; when it is left normally, one commit takes them all. -/
theorem outermost_all_or_nothing (prog : Prog) (faults : List Faults) (next : Faults)
    (works : next.rollback = false) (flag : Bool) (since : Nat) (stack : List Frame)
    (top : (run (begin prog) faults).stack = .transaction flag since :: stack)
    (outermost : transactionBlocks stack = 0)
    (leaves : (run (begin prog) faults).code = .done ∨ (run (begin prog) faults).code = .raising) :
    ((step (run (begin prog) faults) next).code = .raising ∧
      NeverCommitted (step (run (begin prog) faults) next) since
        (run (begin prog) faults).world.executed) ∨
    ((step (run (begin prog) faults) next).code = .done ∧
      CommittedTogether (run (begin prog) faults).world
        (step (run (begin prog) faults) next).world since) := by
  have inv : Inv (run (begin prog) faults) := run_inv (begin_inv prog) faults
  have sound : Sound (run (begin prog) faults) :=
    run_sound (begin_inv prog) (begin_sound prog) faults
  generalize run (begin prog) faults = c at inv sound top leaves ⊢
  have noOuter : outermostSince stack = none := by
    cases outer : outermostSince stack with
    | none => rfl
    | some since => exact absurd outermost (transactionBlocks_ne_zero outer)
  have inside : outermostSince c.stack = some since := by
    rw [top]
    simp [outermostSince, noOuter]
  have counted : c.world.transactions = 1 := by
    rw [inv.counted, top]
    simp [transactionBlocks, outermost]
  obtain ⟨raised, steps⟩ : ∃ raised, step c next =
      leave c.world raised next stack (.transaction flag since) := by
    rcases leaves with done | raising
    · exact ⟨false, by simp only [step, done, top]⟩
    · exact ⟨true, by simp only [step, raising, top]⟩
  obtain ⟨lost, together⟩ := exitTransaction_ends (sound.held since inside) sound.tidy works
    (inv.inside_transaction inside).2 counted flag raised
  rw [steps]
  cases left : (raised || (exitTransaction c.world flag raised next).2) with
  | true =>
    refine Or.inl ⟨by simp only [leave, left, ended, if_true], ?_⟩
    intro later batch mem k after before
    have effects := run_effects (leave c.world raised next stack (.transaction flag since)) later
    exact ((lost left k after before).effects effects).committed batch mem
  | false =>
    exact Or.inr ⟨by simp only [leave, left, ended, Bool.false_eq_true, if_false], together left⟩

/-- A driver that raises nothing. -/
def noFaults : Faults := ⟨false, false, false, false, false, false⟩

/-- A transaction with an update, one more in an inner transaction, and what follows. -/
def nestedUpdates (last : Prog) : Prog :=
  .transaction (.seq (.sql .update) (.seq (.transaction (.sql .update)) last))

/-- Both updates are committed together, or none of them when an exception follows. -/
theorem outermost_all_or_nothing_nested :
    CommittedTogether (run (begin (nestedUpdates .skip)) (List.replicate 14 noFaults)).world
        (step (run (begin (nestedUpdates .skip)) (List.replicate 14 noFaults)) noFaults).world 0 ∧
      NeverCommitted
        (step (run (begin (nestedUpdates .raise)) (List.replicate 14 noFaults)) noFaults) 0 2 := by
  constructor
  · rcases outermost_all_or_nothing (nestedUpdates .skip) (List.replicate 14 noFaults) noFaults rfl
      true 0 [] (by decide) rfl (by decide) with ⟨raising, -⟩ | ⟨-, together⟩
    · exact absurd raising (by decide)
    · exact together
  · rcases outermost_all_or_nothing (nestedUpdates .raise) (List.replicate 14 noFaults) noFaults rfl
      true 0 [] (by decide) rfl (by decide) with ⟨-, never⟩ | ⟨done, -⟩
    · exact never
    · exact absurd done (by decide)

/-- An inner block updates and raises; the outer block catches the exception. -/
def caughtInside : Prog :=
  .transaction (.tryExcept (.transaction (.seq (.sql .update) .raise)) .skip)

/-- An inner block that an exception leaves has its update committed with the outer block. -/
theorem inner_block_committed :
    (run (begin caughtInside) (List.replicate 9 noFaults)).stack =
        [.transaction false 0, .handler .skip, .transaction true 0] ∧
      (run (begin caughtInside) (List.replicate 9 noFaults)).code = .raising ∧
      (run (begin caughtInside) (List.replicate 9 noFaults)).world.executed = 1 ∧
      (run (begin caughtInside) (List.replicate 10 noFaults)).code = .raising ∧
      (run (begin caughtInside) (List.replicate 13 noFaults)).world.committed = [[0]] ∧
      ¬ NeverCommitted (run (begin caughtInside) (List.replicate 10 noFaults)) 0 1 := by
  refine ⟨by decide, by decide, by decide, by decide, by decide, ?_⟩
  intro never
  exact never (List.replicate 3 noFaults) [0] (by decide) 0 (by decide) (by decide) (by decide)

end Held

end CodeLearning.Transwarp
