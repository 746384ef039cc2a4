import CodeLearning.Lib.FileProgram

/-!
# Rely and guarantee for programs over locked files

A `Logic` gives states with an invariant, and for each process what it may rely on while
others run. A state carries the shared world and any ghost data a proof keeps beside it.
`Logic.wp` is the weakest precondition of a program of one process: each call is proved from
any state the others may have made of the last one, keeps the invariant and gives every
other process what it relies on. A proof about one process then holds in every pool
(`Logic.sound`) and, when the process is the only one, of its run (`Logic.run_sound`).
-/

namespace CodeLearning

namespace FileProgram

/-- States, their invariant and what processes rely on. -/
structure Logic (P F N S : Type) where
  /-- World of a state. -/
  world : S → World P F N
  /-- What holds between any two steps. -/
  Inv : S → Prop
  /-- What steps of other processes keep for a process. -/
  Rely : P → S → S → Prop
  /-- No step keeps everything. -/
  rely_refl : ∀ p s, Rely p s s
  /-- Steps may follow one another. -/
  rely_trans : ∀ p s t u, Rely p s t → Rely p t u → Rely p s u

namespace Logic

variable {P F E N S α β : Type} [DecidableEq P] [DecidableEq F] {L : Logic P F N S} {p : P}
  {prog : Prog F E N α} {post post' : α → S → Prop} {fail fail' : E → S → Prop} {s t : S}

/-- A step of `p` gives every other process what it relies on. -/
def Guarantee (L : Logic P F N S) (p : P) (s t : S) : Prop := ∀ q, q ≠ p → L.Rely q s t

/-- Weakest precondition of a program of process `p`. -/
def wp (L : Logic P F N S) (p : P) :
    Prog F E N α → (α → S → Prop) → (E → S → Prop) → S → Prop
  | .ret value, post, _, s => ∀ t, L.Rely p s t → L.Inv t → post value t
  | .abort failure, _, fail, s => ∀ t, L.Rely p s t → L.Inv t → fail failure t
  | .hang, _, _, s => ∀ t, L.Rely p s t → L.Inv t → False
  | .op call rest, post, fail, s =>
    ∀ t, L.Rely p s t → L.Inv t → (L.world t).Enabled p call →
      ∃ u, L.world u = (L.world t).act p call ∧ L.Inv u ∧ L.Guarantee p t u ∧
        L.wp p (rest ((L.world t).answer call)) post fail u

/-- A precondition outlives steps of other processes. -/
theorem wp_rely (pre : L.wp p prog post fail s) (rely : L.Rely p s t) :
    L.wp p prog post fail t := by
  have extend : ∀ u, L.Rely p t u → L.Rely p s u := fun u later =>
    L.rely_trans p s t u rely later
  cases prog with
  | ret value => exact fun u later inv => pre u (extend u later) inv
  | abort failure => exact fun u later inv => pre u (extend u later) inv
  | hang => exact fun u later inv => pre u (extend u later) inv
  | op call rest => exact fun u later inv enabled => pre u (extend u later) inv enabled

/-- It is enough to start from the states that others may have made of this one. -/
theorem wp_intro (pre : ∀ t, L.Rely p s t → L.Inv t → L.wp p prog post fail t) :
    L.wp p prog post fail s := by
  have here : ∀ t, L.Rely p t t := fun t => L.rely_refl p t
  cases prog with
  | ret value => exact fun t rely inv => pre t rely inv t (here t) inv
  | abort failure => exact fun t rely inv => pre t rely inv t (here t) inv
  | hang => exact fun t rely inv => pre t rely inv t (here t) inv
  | op call rest => exact fun t rely inv enabled => pre t rely inv t (here t) inv enabled

/-- What the invariant tells of every state that may come may be used. -/
theorem wp_fact {fact : Prop} (known : ∀ t, L.Rely p s t → L.Inv t → fact)
    (next : fact → L.wp p prog post fail s) : L.wp p prog post fail s := by
  apply wp_intro
  intro t rely inv
  exact wp_rely (next (known t rely inv)) rely

/-- A call that changes nothing and whose answer the state tells leaves the state as it was. -/
theorem wp_look {call : Op F N} {rest : call.Answer → Prog F E N α} {answer : call.Answer}
    (still : ∀ w : World P F N, w.act p call = w)
    (known : ∀ t, L.Rely p s t → L.Inv t → (L.world t).answer call = answer)
    (next : L.wp p (rest answer) post fail s) : L.wp p (.op call rest) post fail s := by
  intro t rely inv enabled
  refine ⟨t, (still _).symm, inv, fun q _ => L.rely_refl q t, ?_⟩
  rw [known t rely inv]
  exact wp_rely next rely

/-- A call with the effect `update` moves the known state by the same update. -/
theorem wp_update {call : Op F N} {rest : call.Answer → Prog F E N α} {answer : call.Answer}
    (update : S → S)
    (known : ∀ t, L.Rely p s t → L.Inv t → (L.world t).answer call = answer)
    (step : ∀ t, L.Rely p s t → L.Inv t → (L.world t).Enabled p call →
      L.world (update t) = (L.world t).act p call ∧ L.Inv (update t) ∧
        L.Guarantee p t (update t) ∧ L.Rely p (update s) (update t))
    (next : L.wp p (rest answer) post fail (update s)) :
    L.wp p (.op call rest) post fail s := by
  intro t rely inv enabled
  obtain ⟨world, kept, guarantee, moved⟩ := step t rely inv enabled
  refine ⟨update t, world, kept, guarantee, ?_⟩
  rw [known t rely inv]
  exact wp_rely next moved

/-! ## Pools -/

/-- Every step of a pool keeps the preconditions of all its processes. -/
theorem sound_step {post : P → α → S → Prop} {fail : P → E → S → Prop}
    {c d : Config P F E N α} (step : Step c d) (alive : ∀ q, d.procs q ≠ .exited)
    (world : L.world s = c.world) (inv : L.Inv s)
    (pre : ∀ q, ∃ prog, c.procs q = .running prog ∧ L.wp q prog (post q) (fail q) s) :
    ∃ t, L.world t = d.world ∧ L.Inv t ∧
      ∀ q, ∃ prog, d.procs q = .running prog ∧ L.wp q prog (post q) (fail q) t := by
  cases step with
  | @act p call rest here enabled =>
    have mine : L.wp p (.op call rest) (post p) (fail p) s := by
      obtain ⟨prog, now, pre⟩ := pre p
      rw [here] at now
      cases now
      exact pre
    obtain ⟨t, moved, kept, guarantee, next⟩ :=
      mine s (L.rely_refl p s) inv (by rw [world]; exact enabled)
    rw [world] at moved next
    refine ⟨t, moved, kept, ?_⟩
    intro q
    by_cases same : q = p
    · subst same
      exact ⟨_, Function.update_self .., next⟩
    · obtain ⟨prog, now, pre⟩ := pre q
      refine ⟨prog, ?_, wp_rely pre (guarantee q same)⟩
      simp only [Function.update_of_ne same, now]
  | exit p here =>
    exact absurd (Function.update_self ..) (alive p)

/-- In every pool whose processes start with their preconditions, and in which none has
exited with a failure, the invariant holds and each process has its precondition. -/
theorem sound {post : P → α → S → Prop} {fail : P → E → S → Prop}
    {c d : Config P F E N α} (reaches : Reaches c d) (alive : ∀ q, d.procs q ≠ .exited)
    (world : L.world s = c.world) (inv : L.Inv s)
    (pre : ∀ q, ∃ prog, c.procs q = .running prog ∧ L.wp q prog (post q) (fail q) s) :
    ∃ t, L.world t = d.world ∧ L.Inv t ∧
      ∀ q, ∃ prog, d.procs q = .running prog ∧ L.wp q prog (post q) (fail q) t := by
  induction reaches with
  | refl => exact ⟨s, world, inv, pre⟩
  | @tail c' d' _ step before =>
    have aliveBefore : ∀ q, c'.procs q ≠ .exited := fun q gone =>
      alive q (exited_of_step step gone)
    obtain ⟨t, world, inv, pre⟩ := before aliveBefore
    exact sound_step step alive world inv pre

/-! ## A process alone -/

/-- What the weakest precondition says of the end of a run. -/
def Ends (L : Logic P F N S) (post : α → S → Prop) (fail : E → S → Prop) :
    Outcome E α × World P F N → Prop
  | (.returned value, w) => ∃ s, L.world s = w ∧ L.Inv s ∧ post value s
  | (.aborted failure, w) => ∃ s, L.world s = w ∧ L.Inv s ∧ fail failure s
  | (.hung, _) => False

/-- A process alone ends as its precondition says. -/
theorem run_sound [Subsingleton P] (pre : L.wp p prog post fail s) (inv : L.Inv s) :
    L.Ends post fail (run p prog (L.world s)) := by
  induction prog generalizing s with
  | ret value => exact ⟨s, rfl, inv, pre s (L.rely_refl p s) inv⟩
  | abort failure => exact ⟨s, rfl, inv, pre s (L.rely_refl p s) inv⟩
  | hang => exact pre s (L.rely_refl p s) inv
  | op call rest step =>
    have enabled : (L.world s).Enabled p call := by
      cases call with
      | lock file mode range => exact fun q other => absurd (Subsingleton.elim q p) other
      | _ => trivial
    obtain ⟨t, world, kept, -, next⟩ := pre s (L.rely_refl p s) inv enabled
    have ends := step _ next kept
    rw [world] at ends
    exact ends

end Logic

end FileProgram

end CodeLearning
