import CodeLearning.Lib.LinkedList

/-!
# The job queue

`11.6.4job_queue.c` keeps jobs in a doubly linked list with a head and a tail. The links of all
jobs are two maps of the memory, and each call runs under the lock of the queue, so calls
follow one another. The statement before the `else` of `job_insert`, which lacks its
semicolon, is read with one. `job_remove` assigns where it means to compare: it clears the
tail whenever it removes the first job.
-/

namespace CodeLearning.Threads

open LinkedList

/-- Address of a job. -/
abbrev Job := Nat

/-- `NULL`. -/
def null : Job := 0

/-- The queue and the memory of the jobs. -/
structure Queue (Id : Type) where
  /-- `q_head`. -/
  head : Job
  /-- `q_tail`. -/
  tail : Job
  /-- `j_next` of each job. -/
  next : Job → Job
  /-- `j_prev` of each job. -/
  prev : Job → Job
  /-- `j_id` of each job. -/
  id : Job → Id

variable {Id : Type}

/-- `queue_init`. -/
def queueInit (s : Queue Id) : Queue Id := { s with head := null, tail := null }

/-- `job_insert`. -/
def jobInsert (s : Queue Id) (jp : Job) : Queue Id :=
  let s := { s with next := Function.update s.next jp s.head }
  let s := { s with prev := Function.update s.prev jp null }
  let s :=
    if s.head ≠ null then { s with prev := Function.update s.prev s.head jp }
    else { s with tail := jp }
  { s with head := jp }

/-- `job_append`. -/
def jobAppend (s : Queue Id) (jp : Job) : Queue Id :=
  let s := { s with next := Function.update s.next jp null }
  let s := { s with prev := Function.update s.prev jp s.tail }
  let s :=
    if s.tail ≠ null then { s with next := Function.update s.next s.tail jp }
    else { s with head := jp }
  { s with tail := jp }

/-- `job->j_next = value`, unless the job is `NULL`. -/
def setNext (s : Queue Id) (job value : Job) : Option (Queue Id) :=
  if job = null then none else some { s with next := Function.update s.next job value }

/-- `job->j_prev = value`, unless the job is `NULL`. -/
def setPrev (s : Queue Id) (job value : Job) : Option (Queue Id) :=
  if job = null then none else some { s with prev := Function.update s.prev job value }

/-- `job_remove`; `none` when it follows `NULL`. -/
def jobRemove (s : Queue Id) (jp : Job) : Option (Queue Id) :=
  if jp = s.head then
    let s := { s with head := s.next jp }
    -- the condition is an assignment: it sets the tail and holds unless `jp` is `NULL`
    let s := { s with tail := jp }
    if s.tail ≠ null then some { s with tail := null }
    else setPrev s (s.next jp) (s.prev jp)
  else if jp = s.tail then
    let s := { s with tail := s.prev jp }
    setNext s (s.prev jp) (s.next jp)
  else do
    let s ← setNext s (s.prev jp) (s.next jp)
    setPrev s (s.next jp) (s.prev jp)

/-- The loop of `job_find`; `none` when it goes on after so many jobs. -/
def findLoop [DecidableEq Id] (s : Queue Id) (id : Id) : Nat → Job → Option Job
  | 0, _ => none
  | fuel + 1, jp =>
    if jp = null then some null
    else if s.id jp = id then some jp
    else findLoop s id fuel (s.next jp)

/-- `job_find`, once it has the lock. -/
def jobFind [DecidableEq Id] (fuel : Nat) (s : Queue Id) (id : Id) : Option Job :=
  findLoop s id fuel s.head

/-! ## Following links -/

section Visits

variable {link : Job → Job} {p j n value : Job} {l front back : List Job}

/-- Following the links from `p` visits the jobs of the list and ends in `NULL`. -/
def Visits (link : Job → Job) (p : Job) (l : List Job) : Prop :=
  Path null (fun j => some (link j)) p l

/-- The first job and the rest. -/
theorem visits_cons :
    Visits link p (j :: l) ↔ p = j ∧ j ≠ null ∧ Visits link (link j) l := by
  simp [Visits, LinkedList.Path]

/-- Setting a link is setting the successor. -/
theorem update_link :
    (fun k => some (Function.update link j value k)) =
      Function.update (fun k => some (link k)) j (some value) := by
  funext k
  by_cases same : k = j
  · rw [same, Function.update_self, Function.update_self]
  · rw [Function.update_of_ne same, Function.update_of_ne same]

/-- The link of a job outside of the list does not matter. -/
theorem Visits.outside (visits : Visits link p l) (outside : j ∉ l) (value : Job) :
    Visits (Function.update link j value) p l := by
  rw [Visits, update_link]
  exact visits.update_outside outside _

/-- A job of the list is led to another list. -/
theorem Visits.redirect (visits : Visits link p (front ++ j :: back)) (other : Visits link n l)
    (outside : j ∉ l) : Visits (Function.update link j n) p (front ++ j :: l) := by
  rw [Visits, update_link]
  exact Path.redirect visits other outside

/-- The jobs after a job of the list. -/
theorem Visits.after (visits : Visits link p (front ++ j :: back)) : Visits link (link j) back :=
  (visits_cons.mp (Path.suffix visits)).2.2

/-- A list that starts at `NULL` is empty. -/
theorem Visits.start_eq_null_iff (visits : Visits link p l) : p = null ↔ l = [] := by
  cases l with
  | nil => exact ⟨fun _ => rfl, fun _ => visits⟩
  | cons j l =>
    obtain ⟨rfl, nonnull, -⟩ := visits_cons.mp visits
    simp [nonnull]

end Visits

/-! ## The queue as a list -/

section Calls

variable [DecidableEq Id] {s s' : Queue Id} {l front back : List Job} {j p n : Job} {fuel : Nat}

/-- The queue holds the jobs of the list: forwards, backwards, and for a search by id. -/
structure Holds (s : Queue Id) (l : List Job) : Prop where
  /-- From the head along `j_next`. -/
  forward : Visits s.next s.head l
  /-- From the tail along `j_prev`. -/
  backward : Visits s.prev s.tail l.reverse
  /-- The head is `NULL` with the tail. -/
  ends : s.head = null ↔ s.tail = null
  /-- `job_find` returns the first job with the id, `NULL` when there is none. -/
  find : ∀ id fuel, l.length < fuel →
    jobFind fuel s id = some ((l.find? fun j => s.id j = id).getD null)

/-- `job_find` searches the list. -/
theorem findLoop_eq {id : Id} (visits : Visits s.next p l) (enough : l.length < fuel) :
    findLoop s id fuel p = some ((l.find? fun j => s.id j = id).getD null) := by
  induction l generalizing p fuel with
  | nil =>
    obtain ⟨fuel, rfl⟩ : ∃ k, fuel = k + 1 := ⟨fuel - 1, by simp at enough; omega⟩
    have isNull : p = null := visits
    rw [findLoop, if_pos isNull]
    rfl
  | cons j l rest =>
    rw [List.length_cons] at enough
    obtain ⟨fuel, rfl⟩ : ∃ k, fuel = k + 1 := ⟨fuel - 1, by omega⟩
    obtain ⟨rfl, nonnull, later⟩ := visits_cons.mp visits
    rw [findLoop, if_neg nonnull]
    by_cases same : s.id p = id
    · rw [if_pos same, List.find?_cons_of_pos (by simpa using same)]
      rfl
    · rw [if_neg same, List.find?_cons_of_neg (by simpa using same), rest later (by omega)]

/-- The links decide. -/
theorem holds_of_visits (forward : Visits s.next s.head l)
    (backward : Visits s.prev s.tail l.reverse) : Holds s l := by
  refine ⟨forward, backward, ?_, fun id fuel enough => findLoop_eq forward enough⟩
  rw [forward.start_eq_null_iff, backward.start_eq_null_iff, List.reverse_eq_nil_iff]

/-- A new queue is empty. -/
theorem holds_init (s : Queue Id) : Holds (queueInit s) [] := holds_of_visits rfl rfl

/-- `job_insert` puts a job in front. -/
theorem holds_insert (holds : Holds s l) (nonnull : j ≠ null) (absent : j ∉ l) :
    Holds (jobInsert s j) (j :: l) := by
  have absentReverse : j ∉ l.reverse := fun mem => absent (List.mem_reverse.mp mem)
  cases l with
  | nil =>
    have isNull : s.head = null := holds.forward
    apply holds_of_visits
    · simp [jobInsert, isNull, visits_cons, nonnull]
      rfl
    · simp [jobInsert, isNull, visits_cons, nonnull]
      rfl
  | cons k l =>
    obtain ⟨isHead, nonnullK, -⟩ := visits_cons.mp holds.forward
    have differ : k ≠ j := fun same => absent (same ▸ List.mem_cons_self)
    apply holds_of_visits
    · simp only [jobInsert, isHead, nonnullK, ne_eq, not_false_eq_true, if_true]
      rw [visits_cons, Function.update_self]
      refine ⟨rfl, nonnull, ?_⟩
      have outside := holds.forward.outside absent k
      rw [isHead] at outside
      exact outside
    · simp only [jobInsert, isHead, nonnullK, ne_eq, not_false_eq_true, if_true,
        List.reverse_cons, List.append_assoc, List.singleton_append]
      have cleared := holds.backward.outside absentReverse null
      rw [List.reverse_cons] at cleared
      apply Visits.redirect cleared
      · rw [visits_cons, Function.update_self]
        exact ⟨rfl, nonnull, rfl⟩
      · simpa using differ

/-- The queue with its directions exchanged. -/
def Queue.mirror (s : Queue Id) : Queue Id :=
  { s with head := s.tail, tail := s.head, next := s.prev, prev := s.next }

/-- The mirrored queue holds the reversed list. -/
theorem Holds.mirror (holds : Holds s l) : Holds s.mirror l.reverse := by
  apply holds_of_visits holds.backward
  rw [List.reverse_reverse]
  exact holds.forward

omit [DecidableEq Id] in
/-- `job_append` is `job_insert` in the mirror. -/
theorem jobAppend_eq (s : Queue Id) (j : Job) :
    jobAppend s j = (jobInsert s.mirror j).mirror := by
  by_cases empty : s.tail = null
  · simp [jobAppend, jobInsert, Queue.mirror, empty]
  · simp [jobAppend, jobInsert, Queue.mirror, empty]

/-- `job_append` puts a job at the end. -/
theorem holds_append (holds : Holds s l) (nonnull : j ≠ null) (absent : j ∉ l) :
    Holds (jobAppend s j) (l ++ [j]) := by
  have absentReverse : j ∉ l.reverse := fun mem => absent (List.mem_reverse.mp mem)
  have inserted := (holds_insert holds.mirror nonnull absentReverse).mirror
  rw [jobAppend_eq]
  simpa using inserted

/-- `job_remove` of the first job empties a queue of one job, and damages a longer one. -/
theorem jobRemove_head (holds : Holds s (j :: l)) :
    ∃ s', jobRemove s j = some s' ∧ s'.id = s.id ∧ (Holds s' l ↔ l = []) := by
  obtain ⟨isHead, nonnull, later⟩ := visits_cons.mp holds.forward
  refine ⟨{ s with head := s.next j, tail := null }, ?_, rfl, ?_⟩
  · simp [jobRemove, isHead, nonnull]
  · constructor
    · intro holds'
      exact later.start_eq_null_iff.mp (holds'.ends.mpr rfl)
    · rintro rfl
      exact holds_of_visits later rfl

/-- `job_remove` takes out any other job. -/
theorem jobRemove_later (holds : Holds s (front ++ p :: j :: back)) :
    ∃ s', jobRemove s j = some s' ∧ Holds s' (front ++ p :: back) := by
  have nodup := holds.forward.nodup
  rw [List.nodup_append, List.nodup_cons, List.nodup_cons] at nodup
  obtain ⟨-, ⟨notP, notJ, -⟩, apart⟩ := nodup
  have differ : j ≠ p := fun same => notP (same ▸ List.mem_cons_self)
  have outsideP : p ∉ back := fun mem => notP (List.mem_cons_of_mem _ mem)
  have nonnullP : p ≠ null := holds.forward.ne_null (b := p) (by simp)
  have notHead : j ≠ s.head := by
    cases front with
    | nil =>
      rw [(visits_cons.mp holds.forward).1]
      exact differ
    | cons h front =>
      rw [(visits_cons.mp holds.forward).1]
      exact fun same => apart h List.mem_cons_self j (by simp) same.symm
  -- What the links of the removed job say.
  have backward : Visits s.prev s.tail (back.reverse ++ j :: p :: front.reverse) := by
    simpa using holds.backward
  have before := backward.after
  have isPrev : s.prev j = p := (visits_cons.mp before).1
  rw [isPrev] at before
  have after_ : Visits s.next (s.next j) back := by
    have forward : Visits s.next s.head ((front ++ [p]) ++ j :: back) := by
      simpa using holds.forward
    exact forward.after
  have led : Visits (Function.update s.next p (s.next j)) s.head (front ++ p :: back) :=
    holds.forward.redirect after_ outsideP
  cases back with
  | nil =>
    have isTail : s.tail = j := (visits_cons.mp backward).1
    refine ⟨{ s with tail := p, next := Function.update s.next p (s.next j) }, ?_, ?_⟩
    · rw [jobRemove, if_neg notHead, if_pos isTail.symm]
      simp only [setNext, isPrev, if_neg nonnullP]
    · apply holds_of_visits led
      rw [List.reverse_append, List.reverse_singleton, List.singleton_append]
      exact before
  | cons n back =>
    obtain ⟨isNext, nonnullN, -⟩ := visits_cons.mp after_
    have notTail : j ≠ s.tail := by
      rintro rfl
      have sameList := Path.unique backward (Path.suffix backward)
      have lengths := congrArg List.length sameList
      simp only [List.length_append, List.length_reverse, List.length_cons] at lengths
      omega
    have outsideN : n ∉ p :: front.reverse := by
      intro mem
      rcases List.mem_cons.mp mem with same | inFront
      · exact outsideP (same ▸ List.mem_cons_self)
      · exact apart n (List.mem_reverse.mp inFront) n (by simp) rfl
    refine ⟨{ s with next := Function.update s.next p n, prev := Function.update s.prev n p },
      ?_, ?_⟩
    · rw [jobRemove, if_neg notHead, if_neg notTail, isPrev, setNext, if_neg nonnullP]
      simp only [Option.bind_eq_bind, Option.bind_some, Function.update_of_ne differ, isNext,
        isPrev, setPrev, if_neg nonnullN]
    · rw [isNext] at led
      apply holds_of_visits led
      have ends : Visits s.prev s.tail (back.reverse ++ n :: j :: p :: front.reverse) := by
        simpa using backward
      simpa using ends.redirect before outsideN

end Calls

/-! ## Runs -/

/-- A call on the queue. -/
inductive QueueCall where
  | insert (jp : Job)
  | append (jp : Job)
  | remove (jp : Job)

/-- Effect of a call on the queue. -/
def callQueue (s : Queue Id) : QueueCall → Option (Queue Id)
  | .insert jp => some (jobInsert s jp)
  | .append jp => some (jobAppend s jp)
  | .remove jp => jobRemove s jp

/-- Effect of a call on the list of jobs. -/
def callList (l : List Job) : QueueCall → List Job
  | .insert jp => jp :: l
  | .append jp => l ++ [jp]
  | .remove jp => l.erase jp

/-- Jobs are inserted and appended only when they are absent, and removed when present. -/
def Legal (l : List Job) : QueueCall → Prop
  | .insert jp => jp ≠ null ∧ jp ∉ l
  | .append jp => jp ≠ null ∧ jp ∉ l
  | .remove jp => jp ∈ l

/-- Every call is legal for the list that the calls before it make. -/
def LegalRun : List Job → List QueueCall → Prop
  | _, [] => True
  | l, call :: calls => Legal l call ∧ LegalRun (callList l call) calls

/-- The call does not remove the first of several jobs. -/
def SparesHead (l : List Job) : QueueCall → Prop
  | .insert _ => True
  | .append _ => True
  | .remove jp => l.head? = some jp → l.length = 1

/-- No call of the run removes the first of several jobs. -/
def SparesHeads : List Job → List QueueCall → Prop
  | _, [] => True
  | l, call :: calls => SparesHead l call ∧ SparesHeads (callList l call) calls

/-- Before the run and after every call of it, the queue holds the list. -/
def HoldsThroughout [DecidableEq Id] : Queue Id → List Job → List QueueCall → Prop
  | s, l, [] => Holds s l
  | s, l, call :: calls =>
    Holds s l ∧ ∃ s', callQueue s call = some s' ∧ HoldsThroughout s' (callList l call) calls

section Runs

variable [DecidableEq Id] {s : Queue Id} {l : List Job} {call : QueueCall} {calls : List QueueCall}

/-- After a legal call the queue holds the new list exactly when the call spared the head. -/
theorem callQueue_holds (holds : Holds s l) (legal : Legal l call) :
    ∃ s', callQueue s call = some s' ∧ (Holds s' (callList l call) ↔ SparesHead l call) := by
  cases call with
  | insert jp => exact ⟨_, rfl, fun _ => trivial, fun _ => holds_insert holds legal.1 legal.2⟩
  | append jp => exact ⟨_, rfl, fun _ => trivial, fun _ => holds_append holds legal.1 legal.2⟩
  | remove jp =>
    have mem : jp ∈ l := legal
    obtain ⟨front, back, rfl⟩ := List.append_of_mem mem
    have nodup := holds.forward.nodup
    have notFront : jp ∉ front := by
      rw [List.nodup_append] at nodup
      exact fun inFront => nodup.2.2 jp inFront jp (by simp) rfl
    have erased : (front ++ jp :: back).erase jp = front ++ back := by
      rw [List.erase_append_right _ notFront, List.erase_cons_head]
    simp only [callList, erased, SparesHead]
    rcases List.eq_nil_or_concat front with rfl | ⟨front, p, rfl⟩
    · obtain ⟨s', removed, -, holdsIff⟩ := jobRemove_head holds
      refine ⟨s', removed, ?_⟩
      rw [List.nil_append, holdsIff]
      simp
    · have parts : Holds s (front ++ p :: jp :: back) := by simpa using holds
      obtain ⟨s', removed, holds'⟩ := jobRemove_later parts
      refine ⟨s', removed, fun _ isHead => ?_, fun _ => by simpa using holds'⟩
      cases front with
      | nil => exact absurd isHead (by simpa using fun same => notFront (by simp [same]))
      | cons h front => exact absurd isHead (by simpa using fun same => notFront (by simp [same]))

/-- A legal run on a queue that holds a list. -/
theorem holdsThroughout_iff (holds : Holds s l) (legal : LegalRun l calls) :
    HoldsThroughout s l calls ↔ SparesHeads l calls := by
  induction calls generalizing s l with
  | nil => exact ⟨fun _ => trivial, fun _ => holds⟩
  | cons call calls rest =>
    obtain ⟨s', called, holdsIff⟩ := callQueue_holds holds legal.1
    constructor
    · rintro ⟨-, s'', called', throughout⟩
      obtain rfl := Option.some.inj (called.symm.trans called')
      have holds' : Holds s' (callList l call) := by
        cases calls with
        | nil => exact throughout
        | cons next calls => exact throughout.1
      exact ⟨holdsIff.mp holds', (rest holds' legal.2).mp throughout⟩
    · rintro ⟨spares, later⟩
      exact ⟨holds, s', called, (rest (holdsIff.mpr spares) legal.2).mpr later⟩

end Runs

/-- In every legal run on a new queue, the queue holds the list of its jobs after every call
exactly when no call removes the first of several jobs. -/
theorem queue_holds_iff [DecidableEq Id] (s : Queue Id) (calls : List QueueCall)
    (legal : LegalRun [] calls) :
    HoldsThroughout (queueInit s) [] calls ↔ SparesHeads [] calls :=
  holdsThroughout_iff (holds_init s) legal

/-- Two jobs are appended and removed, the last one first. -/
theorem queue_holds_last_first :
    HoldsThroughout (queueInit ⟨0, 0, fun _ => 0, fun _ => 0, fun j => j⟩) []
      [.append 1, .append 2, .remove 2, .remove 1] := by
  refine (queue_holds_iff _ _ ?_).mpr ?_
  · simp [LegalRun, Legal, callList, null]
  · simp [SparesHeads, SparesHead, callList]

/-- Two jobs are appended and the first one is removed: the tail is `NULL` although the head
is not. -/
theorem queue_loses_tail :
    LegalRun [] [.append 1, .append 2, .remove 1] ∧
      ¬ HoldsThroughout (queueInit ⟨0, 0, fun _ => 0, fun _ => 0, fun j => j⟩) []
        [.append 1, .append 2, .remove 1] := by
  have legal : LegalRun [] [.append 1, .append 2, .remove 1] := by
    simp [LegalRun, Legal, callList, null]
  refine ⟨legal, ?_⟩
  rw [holdsThroughout_iff (holds_init _) legal]
  simp [SparesHeads, SparesHead, callList]

end CodeLearning.Threads
