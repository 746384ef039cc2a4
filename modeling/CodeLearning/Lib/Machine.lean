import Mathlib.Data.List.Basic

/-!
# Machines

A machine is a partial function from a state and an event to the next state; `none` says that the
event cannot happen. A run is a list of events. What each event keeps every run keeps, and a
measure that each event lowers bounds the length of a run.
-/

namespace CodeLearning

namespace Machine

variable {S E : Type} {step : S → E → Option S} {s s' : S} {events : List E}
  {Inv : S → Prop} {Of : E → Prop}

/-- The state after the events, if all of them can happen in their order. -/
def run (step : S → E → Option S) : S → List E → Option S
  | s, [] => some s
  | s, event :: events => (step s event).bind fun s' => run step s' events

/-- A run that starts with an event goes on from the state after it. -/
theorem run_cons {event : E} (ran : run step s (event :: events) = some s') :
    ∃ t, step s event = some t ∧ run step t events = some s' :=
  Option.bind_eq_some_iff.mp ran

/-- What every event of a kind keeps a run of such events keeps. -/
theorem run_keeps_of (keeps : ∀ s e s', Inv s → Of e → step s e = some s' → Inv s') (inv : Inv s)
    (kind : ∀ e ∈ events, Of e) (ran : run step s events = some s') : Inv s' := by
  induction events generalizing s with
  | nil => exact Option.some.inj ran ▸ inv
  | cons event events rest =>
    obtain ⟨t, stepped, ran⟩ := run_cons ran
    have first := keeps s event t inv (kind event List.mem_cons_self) stepped
    exact rest first (fun e mem => kind e (List.mem_cons_of_mem event mem)) ran

/-- What every event keeps a run keeps. -/
theorem run_keeps (keeps : ∀ s e s', Inv s → step s e = some s' → Inv s') (inv : Inv s)
    (ran : run step s events = some s') : Inv s' :=
  have kept : ∀ s e s', Inv s → True → step s e = some s' → Inv s' :=
    fun s e s' inv _ => keeps s e s' inv
  run_keeps_of kept inv (fun _ _ => trivial) ran

/-- No event of a kind can happen. -/
def Stuck (step : S → E → Option S) (Of : E → Prop) (s : S) : Prop :=
  ∀ event, Of event → step s event = none

/-- A measure that every event of a kind lowers bounds the length of a run of such events. The
invariant and the measure may speak of a ghost, which changes from state to state. -/
theorem run_length_le {G : Type} {Inv : G → S → Prop} {measure : G → S → Nat} {g : G}
    (lowers : ∀ g s e s', Inv g s → Of e → step s e = some s' →
      ∃ g', Inv g' s' ∧ measure g' s' < measure g s)
    (inv : Inv g s) (kind : ∀ e ∈ events, Of e) (ran : run step s events = some s') :
    ∃ g', Inv g' s' ∧ events.length + measure g' s' ≤ measure g s := by
  induction events generalizing s g with
  | nil =>
    cases ran
    exact ⟨g, inv, by simp⟩
  | cons event events rest =>
    obtain ⟨t, stepped, ran⟩ := run_cons ran
    obtain ⟨h, inv', lower⟩ := lowers g s event t inv (kind event List.mem_cons_self) stepped
    have later : ∀ e ∈ events, Of e := fun e mem => kind e (List.mem_cons_of_mem event mem)
    obtain ⟨g', final, bound⟩ := rest inv' later ran
    refine ⟨g', final, ?_⟩
    rw [List.length_cons]
    omega

/-- A measure that every event of a kind lowers where an invariant holds bounds the length of a run
of such events. -/
theorem run_length_le_of {measure : S → Nat}
    (lowers : ∀ s e s', Inv s → Of e → step s e = some s' → Inv s' ∧ measure s' < measure s)
    (inv : Inv s) (kind : ∀ e ∈ events, Of e) (ran : run step s events = some s') :
    events.length ≤ measure s := by
  have ghostly : ∀ (g : Unit) s e s', Inv s → Of e → step s e = some s' →
      ∃ _ : Unit, Inv s' ∧ measure s' < measure s :=
    fun _ s e s' inv kind stepped => ⟨(), lowers s e s' inv kind stepped⟩
  obtain ⟨-, -, bound⟩ := run_length_le (g := ()) ghostly inv kind ran
  omega

/-- A measure that every event lowers bounds the length of every run. -/
theorem run_length_le_measure {measure : S → Nat}
    (lowers : ∀ s e s', step s e = some s' → measure s' < measure s)
    (ran : run step s events = some s') : events.length ≤ measure s :=
  have lowers' : ∀ s e s', True → True → step s e = some s' → True ∧ measure s' < measure s :=
    fun s e s' _ _ stepped => ⟨trivial, lowers s e s' stepped⟩
  run_length_le_of lowers' trivial (fun _ _ => trivial) ran

end Machine

end CodeLearning
