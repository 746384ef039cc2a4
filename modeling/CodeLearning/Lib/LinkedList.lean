import Mathlib.Logic.Function.Basic
import Mathlib.Data.List.Nodup

/-!
# Singly linked lists in a store

A store maps an address to the address of its successor, when a node is there. `Path` says
that following successors from an address visits exactly the nodes of a list and then
reaches the null address. Successors are a function, so a path never meets a node twice:
a list that ends has no cycle.
-/

namespace CodeLearning

namespace LinkedList

variable {α : Type} {null : α} {next next' : α → Option α} {a b n : α} {l l' front back : List α}

/-- From `a`, successors visit the nodes of the list in order and end at `null`. -/
def Path (null : α) (next : α → Option α) : α → List α → Prop
  | a, [] => a = null
  | a, b :: l => a = b ∧ b ≠ null ∧ ∃ n, next b = some n ∧ Path null next n l

/-- The nodes of a path are not null. -/
theorem Path.ne_null (path : Path null next a l) (mem : b ∈ l) : b ≠ null := by
  induction l generalizing a with
  | nil => cases mem
  | cons c l rest =>
    obtain ⟨-, nonnull, n, -, tail⟩ := path
    rcases List.mem_cons.mp mem with same | later
    · rw [same]
      exact nonnull
    · exact rest tail later

/-- A path from the null address is empty. -/
theorem Path.eq_nil (path : Path null next null l) : l = [] := by
  cases l with
  | nil => rfl
  | cons b l => exact absurd path.1.symm path.2.1

/-- A path from another address starts with its node. -/
theorem Path.exists_cons (path : Path null next a l) (nonnull : a ≠ null) :
    ∃ n l', l = a :: l' ∧ next a = some n ∧ Path null next n l' := by
  cases l with
  | nil => exact absurd path nonnull
  | cons b l =>
    obtain ⟨rfl, -, n, found, tail⟩ := path
    exact ⟨n, l, rfl, found, tail⟩

/-- An address has at most one path. -/
theorem Path.unique (path : Path null next a l) (other : Path null next a l') : l = l' := by
  induction l generalizing a l' with
  | nil =>
    have start : a = null := path
    rw [start] at other
    exact other.eq_nil.symm
  | cons b l rest =>
    obtain ⟨rfl, nonnull, n, found, tail⟩ := path
    obtain ⟨n', m, rfl, found', tail'⟩ := other.exists_cons nonnull
    have same : n = n' := Option.some.inj (found.symm.trans found')
    rw [rest tail (same ▸ tail')]

/-- Part of a path from one of its nodes. -/
theorem Path.suffix (path : Path null next a (front ++ b :: back)) :
    Path null next b (b :: back) := by
  induction front generalizing a with
  | nil =>
    obtain ⟨rfl, rest⟩ := path
    exact ⟨rfl, rest⟩
  | cons c front rest =>
    obtain ⟨-, -, n, -, tail⟩ := path
    exact rest tail

/-- The start of a path is null or its first node. -/
theorem Path.start_mem (path : Path null next a l) : a = null ∨ a ∈ l := by
  cases l with
  | nil => exact Or.inl path
  | cons b l => exact Or.inr (path.1 ▸ List.mem_cons_self)

/-- The successor of a node of a path is null or a node of the path. -/
theorem Path.next_mem (path : Path null next a l) (mem : b ∈ l) (found : next b = some n) :
    n = null ∨ n ∈ l := by
  obtain ⟨front, back, rfl⟩ := List.append_of_mem mem
  obtain ⟨-, -, m, found', tail⟩ := path.suffix
  obtain rfl : n = m := Option.some.inj (found.symm.trans found')
  rcases tail.start_mem with last | inside
  · exact Or.inl last
  · exact Or.inr (by simp [inside])

/-- A path meets no node twice. -/
theorem Path.nodup (path : Path null next a l) : l.Nodup := by
  induction l generalizing a with
  | nil => exact List.nodup_nil
  | cons b l rest =>
    have tail : ∃ n, Path null next n l := by
      obtain ⟨-, -, n, -, tail⟩ := path
      exact ⟨n, tail⟩
    obtain ⟨n, tail⟩ := tail
    rw [List.nodup_cons]
    refine ⟨?_, rest tail⟩
    intro again
    -- A second visit would give `b` a shorter path beside its own.
    obtain ⟨front, back, rfl⟩ := List.append_of_mem again
    have start : a = b := path.1
    rw [start] at path
    have same := path.unique tail.suffix
    have lengths := congrArg List.length same
    simp only [List.length_cons, List.length_append] at lengths
    omega

/-- A path depends only on the successors of its nodes. -/
theorem Path.congr (path : Path null next a l) (agree : ∀ b ∈ l, next' b = next b) :
    Path null next' a l := by
  induction l generalizing a with
  | nil => exact path
  | cons b l rest =>
    obtain ⟨start, nonnull, n, found, tail⟩ := path
    refine ⟨start, nonnull, n, ?_, ?_⟩
    · rw [agree b List.mem_cons_self, found]
    · exact rest tail fun c mem => agree c (List.mem_cons_of_mem b mem)

variable [DecidableEq α]

/-- Replacing the successor of a node outside of a path keeps the path. -/
theorem Path.update_outside (path : Path null next a l) (outside : b ∉ l) (value : Option α) :
    Path null (Function.update next b value) a l := by
  apply path.congr
  intro c mem
  have differs : c ≠ b := fun same => outside (same ▸ mem)
  exact Function.update_of_ne differs value next

/-- Redirecting a node of a path to another path replaces what followed the node. -/
theorem Path.redirect (path : Path null next a (front ++ b :: back))
    (other : Path null next n l) (outside : b ∉ l) :
    Path null (Function.update next b (some n)) a (front ++ b :: l) := by
  have distinct := path.nodup
  induction front generalizing a with
  | nil =>
    obtain ⟨start, nonnull, -⟩ := path
    exact ⟨start, nonnull, n, Function.update_self .., other.update_outside outside _⟩
  | cons c front rest =>
    obtain ⟨start, nonnull, m, found, tail⟩ := path
    rw [List.cons_append, List.nodup_cons] at distinct
    have differs : c ≠ b := by
      rintro rfl
      exact distinct.1 (by simp)
    refine ⟨start, nonnull, m, ?_, rest tail distinct.2⟩
    rw [Function.update_of_ne differs, found]

/-- Redirecting a node past its successor takes the successor out of the path. -/
theorem Path.skip {c : α} (path : Path null next a (front ++ b :: c :: back))
    (found : next c = some n) :
    Path null (Function.update next b (some n)) a (front ++ b :: back) := by
  have distinct := path.nodup
  have split : front ++ b :: c :: back = (front ++ [b]) ++ c :: back := by simp
  have rest : Path null next c (c :: back) := by
    rw [split] at path
    exact path.suffix
  obtain ⟨-, -, m, found', tail⟩ := rest
  obtain rfl : n = m := Option.some.inj (found.symm.trans found')
  apply path.redirect tail
  intro again
  have node := (List.nodup_append.mp distinct).2.1
  exact (List.nodup_cons.mp node).1 (List.mem_cons_of_mem c again)

end LinkedList

end CodeLearning
