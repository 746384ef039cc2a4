import Mathlib.Data.Fintype.Card

/-!
# Votes of the polls site

The view `vote` reads the row of the selected choice, adds one to its votes and saves the row.
Requests run side by side, and each of these database steps is one step of a run. A vote is
lost when another request saves the choice between the two steps; the votes are right after
a run exactly when that never happens.
-/

namespace CodeLearning.Polls

/-- A row of `Choice`. -/
structure ChoiceRow where
  /-- Its question. -/
  question : Int
  /-- `choice_text`. -/
  choiceText : String
  /-- `votes`. -/
  votes : Int
deriving DecidableEq

/-- `request.POST['choice']`. -/
inductive Posted where
  /-- There is no such key. -/
  | missing
  /-- The value is not a number. -/
  | malformed
  /-- The value is the key of a choice. -/
  | pk (value : Int)
deriving DecidableEq

/-- A request to the view. -/
structure Request where
  /-- `question_id`. -/
  questionId : Int
  /-- What was posted. -/
  posted : Posted

/-- What the view answers. -/
inductive Response where
  /-- `Http404`. -/
  | notFound
  /-- The form with an error message. -/
  | form
  /-- The server error after a `ValueError`. -/
  | serverError
  /-- The redirect to the results. -/
  | redirect
deriving DecidableEq

/-- Where a request stands. -/
inductive Stage where
  /-- The question is not read yet. -/
  | started
  /-- The question exists; the choice is not read yet. -/
  | asked
  /-- The row of the choice was read and is not saved yet. -/
  | selected (pk : Int) (row : ChoiceRow)
  /-- The view has answered. -/
  | answered (response : Response)
deriving DecidableEq

/-- The questions of the site and the requests that arrive. -/
structure Site (R : Type) where
  /-- Questions that exist. -/
  questions : Int → Bool
  /-- The requests. -/
  request : R → Request

/-- The table of choices and where each request stands. -/
structure State (R : Type) where
  /-- Choices by key. -/
  choices : Int → Option ChoiceRow
  /-- Stage of each request. -/
  stage : R → Stage

variable {R : Type} [DecidableEq R]

/-- The requests arrive. -/
def arrive (choices : Int → Option ChoiceRow) : State R := ⟨choices, fun _ => .started⟩

/-- `get_object_or_404(Question, pk=question_id)`. -/
def getQuestion (site : Site R) (r : R) : Stage :=
  if site.questions (site.request r).questionId then .asked else .answered .notFound

/-- `question.choice_set.get(pk=request.POST['choice'])`. -/
def getChoice (site : Site R) (s : State R) (r : R) : Stage :=
  match (site.request r).posted with
  | .missing => .answered .form
  | .malformed => .answered .serverError
  | .pk value =>
    match s.choices value with
    | none => .answered .form
    | some row =>
      if row.question = (site.request r).questionId then .selected value row
      else .answered .form

/-- `selected_choice.votes += 1` and `selected_choice.save()`, which writes the whole row. -/
def save (s : State R) (r : R) (pk : Int) (row : ChoiceRow) : State R where
  choices := Function.update s.choices pk (some { row with votes := row.votes + 1 })
  stage := Function.update s.stage r (.answered .redirect)

/-- One database step of a request, with what `vote` does up to the next one. -/
def voteStep (site : Site R) (s : State R) (r : R) : State R :=
  match s.stage r with
  | .started => { s with stage := Function.update s.stage r (getQuestion site r) }
  | .asked => { s with stage := Function.update s.stage r (getChoice site s r) }
  | .selected pk row => save s r pk row
  | .answered _ => s

/-- The state after the requests took steps in this order. -/
def voteRun (site : Site R) (s : State R) (schedule : List R) : State R :=
  schedule.foldl (voteStep site) s

/-! ## What a step does -/

section Steps

variable {site : Site R} {s : State R} {r : R}

/-- A step that saves no row: it keeps the table, and a row it selects is the one in the
table. -/
structure Reads (site : Site R) (s s' : State R) : Prop where
  /-- The table stays. -/
  choices : s'.choices = s.choices
  /-- Nobody is redirected. -/
  redirected : ∀ q, s'.stage q = .answered .redirect ↔ s.stage q = .answered .redirect
  /-- Selected rows. -/
  selected : ∀ q pk row, s'.stage q = .selected pk row →
    s.stage q = .selected pk row ∨ ((site.request q).posted = .pk pk ∧ s.choices pk = some row)

omit [DecidableEq R] in
/-- The choice is read. -/
theorem getChoice_selected {pk : Int} {row : ChoiceRow}
    (selected : getChoice site s r = .selected pk row) :
    (site.request r).posted = .pk pk ∧ s.choices pk = some row := by
  unfold getChoice at selected
  cases posted : (site.request r).posted with
  | missing => simp [posted] at selected
  | malformed => simp [posted] at selected
  | pk value =>
    cases found : s.choices value with
    | none => simp [posted, found] at selected
    | some row' =>
      simp only [posted, found] at selected
      split at selected
      · obtain ⟨rfl, rfl⟩ := Stage.selected.inj selected
        exact ⟨rfl, found⟩
      · cases selected

omit [DecidableEq R] in
/-- Reading does not redirect. -/
theorem getChoice_ne_redirect : getChoice site s r ≠ .answered .redirect := by
  unfold getChoice
  split
  · simp
  · simp
  · split
    · simp
    · split
      · simp
      · simp

/-- A stage that is not redirected takes the place of another. -/
theorem reads_of_update {stage : Stage} (here : s.stage r ≠ .answered .redirect)
    (there : stage ≠ .answered .redirect)
    (selected : ∀ pk row, stage = .selected pk row →
      (site.request r).posted = .pk pk ∧ s.choices pk = some row) :
    Reads site s { s with stage := Function.update s.stage r stage } := by
  refine ⟨rfl, ?_, ?_⟩
  · intro q
    by_cases mine : q = r
    · subst mine
      simp only [Function.update_self]
      exact ⟨fun now => absurd now there, fun before => absurd before here⟩
    · simp only [Function.update_of_ne mine]
  · intro q pk row now
    by_cases mine : q = r
    · subst mine
      simp only [Function.update_self] at now
      exact .inr (selected pk row now)
    · simp only [Function.update_of_ne mine] at now
      exact .inl now

/-- A step saves a row or only reads. -/
theorem voteStep_cases (site : Site R) (s : State R) (r : R) :
    (∃ pk row, s.stage r = .selected pk row ∧ voteStep site s r = save s r pk row) ∨
      ((∀ pk row, s.stage r ≠ .selected pk row) ∧ Reads site s (voteStep site s r)) := by
  unfold voteStep
  cases here : s.stage r with
  | started =>
    refine .inr ⟨by simp, reads_of_update (by simp [here]) ?_ ?_⟩
    · unfold getQuestion
      split
      · simp
      · simp
    · intro pk row isSelected
      unfold getQuestion at isSelected
      split at isSelected
      · cases isSelected
      · cases isSelected
  | asked =>
    exact .inr ⟨by simp, reads_of_update (by simp [here]) getChoice_ne_redirect
      fun pk row => getChoice_selected⟩
  | selected pk row => exact .inl ⟨pk, row, rfl, rfl⟩
  | answered response =>
    exact .inr ⟨by simp, rfl, fun _ => Iff.rfl, fun _ _ _ now => .inl now⟩

end Steps

/-! ## Counting saves -/

section Count

variable [Fintype R] {site : Site R} {base : Int → Option ChoiceRow} {s s' : State R} {r : R}
  {pk : Int} {row first : ChoiceRow} {count : Nat}

/-- Number of requests that selected the choice. -/
def selectors (site : Site R) (pk : Int) : Nat :=
  (Finset.univ.filter fun r => (site.request r).posted = .pk pk).card

/-- Number of requests that selected the choice and were redirected. -/
def saves (site : Site R) (s : State R) (pk : Int) : Nat :=
  (Finset.univ.filter fun r =>
    (site.request r).posted = .pk pk ∧ s.stage r = .answered .redirect).card

/-- The row is the first one but for its votes, which so many saves account for. -/
structure Within (first : ChoiceRow) (count : Nat) (row : ChoiceRow) : Prop where
  /-- Only the votes change. -/
  same : row = { first with votes := row.votes }
  /-- Every save adds one vote at most. -/
  bound : row.votes ≤ first.votes + count

omit [DecidableEq R] [Fintype R] in
/-- More saves account for as many votes. -/
theorem Within.succ (within : Within first count row) : Within first (count + 1) row :=
  ⟨within.same, by have := within.bound; push_cast; omega⟩

/-- What holds in every run. -/
structure Inv (site : Site R) (base : Int → Option ChoiceRow) (s : State R) : Prop where
  /-- No choice disappears. -/
  kept : ∀ pk first, base pk = some first → ∃ row, s.choices pk = some row
  /-- Rows of the table. -/
  rows : ∀ pk row, s.choices pk = some row →
    ∃ first, base pk = some first ∧ Within first (saves site s pk) row
  /-- Rows that were read. A row that has all the votes is still the one in the table. -/
  pending : ∀ r pk row, s.stage r = .selected pk row →
    (site.request r).posted = .pk pk ∧
      ∃ first, base pk = some first ∧ Within first (saves site s pk) row ∧
        (row.votes = first.votes + saves site s pk → s.choices pk = some row)

/-- Every save has added a vote. -/
def Exact (site : Site R) (base : Int → Option ChoiceRow) (s : State R) : Prop :=
  ∀ pk first row, base pk = some first → s.choices pk = some row →
    row.votes = first.votes + saves site s pk

/-- A vote for the choice was lost. -/
structure Behind (site : Site R) (s : State R) (pk : Int) (first : ChoiceRow) : Prop where
  /-- In the table. -/
  current : ∀ row, s.choices pk = some row → row.votes < first.votes + saves site s pk
  /-- In the rows that were read. -/
  pending : ∀ r row, s.stage r = .selected pk row → row.votes < first.votes + saves site s pk

omit [DecidableEq R] in
/-- A step that only reads counts nothing. -/
theorem Reads.saves (reads : Reads site s s') (pk : Int) : saves site s' pk = saves site s pk := by
  unfold Polls.saves
  congr 1
  ext q
  simp only [Finset.mem_filter, reads.redirected q]

/-- A save counts for its choice. -/
theorem saves_save (here : s.stage r = .selected pk row) (posted : (site.request r).posted = .pk pk)
    (pk' : Int) :
    saves site (save s r pk row) pk' = saves site s pk' + if pk' = pk then 1 else 0 := by
  unfold saves save
  by_cases same : pk' = pk
  · subst same
    rw [if_pos rfl, ← Finset.card_insert_of_notMem (a := r)]
    · congr 1
      ext q
      by_cases mine : q = r
      · subst mine
        simp [posted]
      · simp [mine]
    · simp [here]
  · rw [if_neg same, Nat.add_zero]
    congr 1
    ext q
    by_cases mine : q = r
    · subst mine
      simp [posted, here, Ne.symm same]
    · simp [Function.update_of_ne mine]

omit [DecidableEq R] in
/-- The requests arrive. -/
theorem inv_arrive : Inv site base (arrive base) := by
  have none_ : ∀ pk, saves site (arrive base) pk = 0 := by
    intro pk
    simp [saves, arrive]
  refine ⟨fun pk first here => ⟨first, here⟩, ?_, ?_⟩
  · intro pk row here
    exact ⟨row, here, rfl, by rw [none_]; simp⟩
  · intro r pk row here
    cases here

omit [DecidableEq R] in
/-- Nothing is lost before the first step. -/
theorem exact_arrive : Exact site base (arrive base) := by
  intro pk first row isFirst here
  obtain rfl : first = row := Option.some.inj (isFirst.symm.trans here)
  simp [saves, arrive]

omit [DecidableEq R] in
/-- Reading keeps the invariant. -/
theorem Inv.reads (inv : Inv site base s) (reads : Reads site s s') : Inv site base s' := by
  refine ⟨?_, ?_, ?_⟩
  · rw [reads.choices]
    exact inv.kept
  · intro pk row
    rw [reads.choices, reads.saves]
    exact inv.rows pk row
  · intro q pk row now
    rw [reads.choices, reads.saves]
    rcases reads.selected q pk row now with before | ⟨posted, here⟩
    · exact inv.pending q pk row before
    · obtain ⟨first, isFirst, within⟩ := inv.rows pk row here
      exact ⟨posted, first, isFirst, within, fun _ => here⟩

/-- A save keeps the invariant. -/
theorem Inv.save (inv : Inv site base s) (here : s.stage r = .selected pk row) :
    Inv site base (save s r pk row) := by
  obtain ⟨posted, first, isFirst, within, -⟩ := inv.pending r pk row here
  have counts := saves_save here posted
  refine ⟨?_, ?_, ?_⟩
  · intro pk' first' isFirst'
    by_cases same : pk' = pk
    · subst same
      exact ⟨_, Function.update_self ..⟩
    · obtain ⟨row', here'⟩ := inv.kept pk' first' isFirst'
      exact ⟨row', by simp only [Polls.save, Function.update_of_ne same, here']⟩
  · intro pk' row' here'
    rw [counts]
    by_cases same : pk' = pk
    · subst same
      simp only [Polls.save, Function.update_self] at here'
      obtain rfl := Option.some.inj here'
      refine ⟨first, isFirst, ?_, ?_⟩
      · simp only
        rw [within.same]
      · have bound := within.bound
        rw [if_pos rfl]
        push_cast
        omega
    · simp only [Polls.save, Function.update_of_ne same] at here'
      rw [if_neg same]
      exact inv.rows pk' row' here'
  · intro q pk' row' now
    by_cases mine : q = r
    · subst mine
      simp [Polls.save] at now
    · simp only [Polls.save, Function.update_of_ne mine] at now
      obtain ⟨posted', first', isFirst', within', fresh⟩ := inv.pending q pk' row' now
      refine ⟨posted', first', isFirst', ?_⟩
      rw [counts]
      by_cases same : pk' = pk
      · subst same
        rw [if_pos rfl]
        refine ⟨within'.succ, fun all => ?_⟩
        -- A row read before this save has not all the votes any more.
        have bound := within'.bound
        push_cast at all
        omega
      · rw [if_neg same, Nat.add_zero]
        refine ⟨within', fun all => ?_⟩
        simp only [Polls.save, Function.update_of_ne same]
        exact fresh all

/-! ## Runs -/

/-- If the request saves its row in this step, the row in the table is still the one it read. -/
def Fresh (s : State R) (r : R) : Prop :=
  ∀ pk row, s.stage r = .selected pk row → s.choices pk = some row

/-- Whenever a request saves its row, the row in the table is still the one it read. -/
def FreshRun (site : Site R) : State R → List R → Prop
  | _, [] => True
  | s, r :: schedule => Fresh s r ∧ FreshRun site (voteStep site s r) schedule

/-- Every step keeps the invariant. -/
theorem Inv.step (inv : Inv site base s) (r : R) : Inv site base (voteStep site s r) := by
  rcases voteStep_cases site s r with ⟨pk, row, here, saved⟩ | ⟨-, reads⟩
  · rw [saved]
    exact inv.save here
  · exact inv.reads reads

/-- A step that saves no stale row loses no vote. -/
theorem Exact.step (inv : Inv site base s) (exact_ : Exact site base s) (fresh : Fresh s r) :
    Exact site base (voteStep site s r) := by
  rcases voteStep_cases site s r with ⟨pk, row, here, saved⟩ | ⟨-, reads⟩
  · obtain ⟨posted, -⟩ := inv.pending r pk row here
    rw [saved]
    intro pk' first' row' isFirst' here'
    rw [saves_save here posted]
    by_cases same : pk' = pk
    · subst same
      have before := exact_ pk' first' row isFirst' (fresh pk' row here)
      simp only [save, Function.update_self] at here'
      rw [← Option.some.inj here', if_pos rfl]
      push_cast
      omega
    · simp only [save, Function.update_of_ne same] at here'
      rw [if_neg same, Nat.add_zero]
      exact exact_ pk' first' row' isFirst' here'
  · intro pk' first' row'
    rw [reads.choices, reads.saves]
    exact exact_ pk' first' row'

/-- A save of a stale row loses a vote. -/
theorem behind_of_stale (inv : Inv site base s) (here : s.stage r = .selected pk row)
    (stale : s.choices pk ≠ some row) :
    ∃ first, base pk = some first ∧ Behind site (save s r pk row) pk first := by
  obtain ⟨posted, first, isFirst, within, fresh⟩ := inv.pending r pk row here
  have count := saves_save here posted pk
  rw [if_pos rfl] at count
  have bound := within.bound
  have less : row.votes ≠ first.votes + saves site s pk := fun all => stale (fresh all)
  refine ⟨first, isFirst, ?_, ?_⟩
  · intro row' here'
    simp only [save, Function.update_self] at here'
    rw [← Option.some.inj here', count]
    push_cast
    omega
  · intro q row' now
    by_cases mine : q = r
    · subst mine
      simp [save] at now
    · simp only [save, Function.update_of_ne mine] at now
      obtain ⟨-, first', isFirst', within', -⟩ := inv.pending q pk row' now
      obtain rfl := Option.some.inj (isFirst.symm.trans isFirst')
      have bound' := within'.bound
      rw [count]
      push_cast
      omega

/-- A lost vote stays lost. -/
theorem Behind.step (inv : Inv site base s) (behind : Behind site s pk first) (r : R) :
    Behind site (voteStep site s r) pk first := by
  rcases voteStep_cases site s r with ⟨pk', row, here, saved⟩ | ⟨-, reads⟩
  · obtain ⟨posted, -⟩ := inv.pending r pk' row here
    have count := saves_save here posted pk
    rw [saved]
    refine ⟨?_, ?_⟩
    · intro row' here'
      rw [count]
      by_cases same : pk = pk'
      · subst same
        have before := behind.pending r row here
        simp only [save, Function.update_self] at here'
        rw [← Option.some.inj here', if_pos rfl]
        push_cast
        omega
      · simp only [save, Function.update_of_ne same] at here'
        rw [if_neg same, Nat.add_zero]
        exact behind.current row' here'
    · intro q row' now
      by_cases mine : q = r
      · subst mine
        simp [save] at now
      · simp only [save, Function.update_of_ne mine] at now
        have before := behind.pending q row' now
        rw [count]
        push_cast
        split
        · omega
        · omega
  · refine ⟨?_, ?_⟩
    · intro row'
      rw [reads.choices, reads.saves]
      exact behind.current row'
    · intro q row' now
      rw [reads.saves]
      rcases reads.selected q pk row' now with before | ⟨-, here⟩
      · exact behind.pending q row' before
      · exact behind.current row' here

/-- A lost vote stays lost to the end of the run. -/
theorem Behind.run (schedule : List R) (inv : Inv site base s) (isFirst : base pk = some first)
    (behind : Behind site s pk first) : ¬ Exact site base (voteRun site s schedule) := by
  induction schedule generalizing s with
  | nil =>
    intro exact_
    obtain ⟨row, here⟩ := inv.kept pk first isFirst
    have less := behind.current row here
    rw [exact_ pk first row isFirst here] at less
    exact absurd less (lt_irrefl _)
  | cons r schedule rest => exact rest (inv.step r) (behind.step inv r)

/-- A run loses no vote exactly when it saves no stale row. -/
theorem exact_run_iff (schedule : List R) (inv : Inv site base s) (exact_ : Exact site base s) :
    Exact site base (voteRun site s schedule) ↔ FreshRun site s schedule := by
  induction schedule generalizing s with
  | nil => exact ⟨fun _ => trivial, fun _ => exact_⟩
  | cons r schedule rest =>
    by_cases fresh : Fresh s r
    · have later := rest (inv.step r) (exact_.step inv fresh)
      exact later.trans ⟨fun run => ⟨fresh, run⟩, fun run => run.2⟩
    · have lost : ¬ Exact site base (voteRun site s (r :: schedule)) := by
        simp only [Fresh, not_forall] at fresh
        obtain ⟨pk, row, here, stale⟩ := fresh
        obtain ⟨first, isFirst, behind⟩ := behind_of_stale inv here stale
        have step : voteStep site s r = save s r pk row := by
          simp only [voteStep, here]
        rw [← step] at behind
        exact behind.run schedule (inv.step r) isFirst
      exact ⟨fun now => absurd now lost, fun run => absurd run.1 fresh⟩

/-- The invariant holds through a run. -/
theorem Inv.run (schedule : List R) (inv : Inv site base s) :
    Inv site base (voteRun site s schedule) := by
  induction schedule generalizing s with
  | nil => exact inv
  | cons r schedule rest => exact rest (inv.step r)

end Count

/-- When all requests have been redirected, whatever the order of their steps, the votes of
every choice are those it had and one for each request that selected it, exactly when every
request saved its row while the row was still the one it had read. -/
theorem votes_counted_iff [Fintype R] (site : Site R) (base : Int → Option ChoiceRow)
    (schedule : List R)
    (redirected : ∀ r, (voteRun site (arrive base) schedule).stage r = .answered .redirect) :
    (∀ pk first, base pk = some first →
        ∃ row, (voteRun site (arrive base) schedule).choices pk = some row ∧
          row.votes = first.votes + selectors site pk) ↔
      FreshRun site (arrive base) schedule := by
  have inv := (inv_arrive : Inv site base (arrive base)).run schedule
  have all : ∀ pk, saves site (voteRun site (arrive base) schedule) pk = selectors site pk := by
    intro pk
    simp only [saves, selectors, redirected, and_true]
  rw [← exact_run_iff schedule inv_arrive exact_arrive]
  constructor
  · intro counted pk first row isFirst here
    obtain ⟨row', here', votes⟩ := counted pk first isFirst
    obtain rfl := Option.some.inj (here.symm.trans here')
    rw [all]
    exact votes
  · intro exact_ pk first isFirst
    obtain ⟨row, here⟩ := inv.kept pk first isFirst
    refine ⟨row, here, ?_⟩
    rw [← all]
    exact exact_ pk first row isFirst here

/-- Two requests that vote for the only choice of a question. -/
def twoVoters : Site Bool := ⟨fun question => question = 1, fun _ => ⟨1, .pk 7⟩⟩

/-- The choice they vote for. -/
def oneChoice (pk : Int) : Option ChoiceRow := if pk = 7 then some ⟨1, "yes", 0⟩ else none

/-- One request after the other: both votes count. -/
theorem votes_counted_in_turn :
    ∃ row, (voteRun twoVoters (arrive oneChoice)
        [false, false, false, true, true, true]).choices 7 = some row ∧ row.votes = 2 := by
  have redirected : ∀ r, (voteRun twoVoters (arrive oneChoice)
      [false, false, false, true, true, true]).stage r = .answered .redirect := by decide
  have fresh : FreshRun twoVoters (arrive oneChoice) [false, false, false, true, true, true] := by
    simp [FreshRun, Fresh, voteStep, arrive, getQuestion, getChoice, save, twoVoters, oneChoice]
  exact (votes_counted_iff twoVoters oneChoice _ redirected).mpr fresh 7 _ rfl

/-- Both requests read the row before either saves it: one vote is lost. -/
theorem votes_lost_side_by_side :
    (∀ r, (voteRun twoVoters (arrive oneChoice) [false, false, true, true, false, true]).stage r =
        .answered .redirect) ∧
      selectors twoVoters 7 = 2 ∧ oneChoice 7 = some ⟨1, "yes", 0⟩ ∧
      (voteRun twoVoters (arrive oneChoice) [false, false, true, true, false, true]).choices 7 =
        some ⟨1, "yes", 1⟩ := by
  decide

end CodeLearning.Polls
