import Mathlib.Data.List.Basic

/-!
# Counted loops

A loop over consecutive numbers with a body that may fail is a fold in `Option`. If a property of
the number and the state holds at the start, and the body succeeds and carries it from each number
to the next one, then the loop succeeds and the property holds at the end. Where the body may fail,
the property holds at the end of each loop that succeeds.
-/

namespace CodeLearning.CountedLoop

variable {σ : Type}

/-- The rule for a loop of `k` rounds from a number on. -/
theorem foldlM_range' {body : σ → Nat → Option σ} (Inv : Nat → σ → Prop) {start k : Nat} {s : σ}
    (init : Inv start s)
    (step : ∀ i s, start ≤ i → i < start + k → Inv i s →
      ∃ s', body s i = some s' ∧ Inv (i + 1) s') :
    ∃ s', (List.range' start k).foldlM body s = some s' ∧ Inv (start + k) s' := by
  induction k generalizing start s with
  | zero => exact ⟨s, rfl, init⟩
  | succ k before =>
    obtain ⟨s1, round, inv⟩ := step start s (Nat.le_refl _) (by omega) init
    obtain ⟨s2, rest, done⟩ := before inv fun i s low high here =>
      step i s (by omega) (by omega) here
    refine ⟨s2, ?_, ?_⟩
    · rw [List.range'_succ, List.foldlM_cons, round]
      exact rest
    · rw [Nat.add_right_comm] at done
      exact done

/-- The rule for a loop of `k` rounds that has succeeded. -/
theorem foldlM_range'_of_some {body : σ → Nat → Option σ} (Inv : Nat → σ → Prop) {start k : Nat}
    {s s' : σ} (init : Inv start s)
    (step : ∀ i s s', start ≤ i → i < start + k → Inv i s → body s i = some s' → Inv (i + 1) s')
    (ran : (List.range' start k).foldlM body s = some s') : Inv (start + k) s' := by
  induction k generalizing start s with
  | zero =>
    obtain rfl := Option.some.inj ran
    exact init
  | succ k before =>
    rw [List.range'_succ, List.foldlM_cons] at ran
    obtain ⟨s1, round, rest⟩ := Option.bind_eq_some_iff.mp ran
    have inv := step start s s1 (Nat.le_refl _) (by omega) init round
    have done := before inv
      (fun i s s' low high here => step i s s' (by omega) (by omega) here) rest
    rw [Nat.add_right_comm] at done
    exact done

/-- A loop in which a round of some number always fails. -/
theorem foldlM_range'_eq_none {body : σ → Nat → Option σ} {start k i : Nat} (s : σ)
    (low : start ≤ i) (high : i < start + k) (fails : ∀ s, body s i = none) :
    (List.range' start k).foldlM body s = none := by
  by_contra succeeds
  obtain ⟨s', ran⟩ := Option.ne_none_iff_exists'.mp succeeds
  have never : ¬ i < start + k := by
    refine foldlM_range'_of_some (fun n _ => ¬ i < n) (by omega) ?_ ran
    intro j s s' _ _ before round reached
    obtain rfl : i = j := by omega
    rw [fails] at round
    cases round
  exact never high

end CodeLearning.CountedLoop
