import CodeLearning.Db.Stored

/-!
# Sessions of a process alone

A process that opens the database and makes its calls one after the other, while nobody else
uses it. A session is taken apart call by call (`session_cons`); calls that only read leave
the files alone. `Reachable` is every pair of files that sessions can make of those that
`db_open` creates.
-/

namespace CodeLearning

namespace Db

open FileProgram

/-! ## Calls that only read -/

section Reads

variable {db : DB} {fuel : Nat}

end Reads

/-! ## Call by call -/

section Session

variable {fuel : Nat} {db db' : DB} {files : File → Bytes} {call : Call} {calls : List Call}
  {result : Result} {w : World Unit File Note}

/-- After a call that returned, the handle is ready and no lock is held. -/
theorem call_returned (standard : Standard db)
    (ends : run () (dbCall fuel db call) (atRest files) = (.returned (result, db'), w)) :
    Standard db' ∧ w = (atRest w.files).after w.log := by
  have moves : Moves Table.empty Table.empty (dbCall fuel db call) fun value =>
      Standard value.2 := moves_call standard
  obtain ⟨empty, standard'⟩ := Ordered.returned (p := ()) (w := atRest files) moves ends
  refine ⟨standard', ?_⟩
  have locks : w.locks = fun _ _ _ => none := by
    funext p file b
    exact congrFun (congrFun empty file) b
  simp only [World.after, atRest, List.append_nil, ← locks]

/-- After a request that returned, the handle is ready. -/
theorem request_returned {request : Request} (standard : Standard db)
    (ends : run () (dbRequest fuel db request) (atRest files) = (.returned (result, db'), w)) :
    Standard db' := by
  have called : run () (dbCall fuel db (.request request)) (atRest files) =
      (.returned (result, db'), w) := ends
  exact (call_returned standard called).1

/-- A session is its first call and the session that follows. -/
theorem session_cons (standard : Standard db) :
    run () (session fuel db (call :: calls)) (atRest files) =
      match run () (dbCall fuel db call) (atRest files) with
      | (.returned (result, db'), w) =>
        ((run () (session fuel db' calls) (atRest w.files)).1,
          (run () (session fuel db' calls) (atRest w.files)).2.after
            (w.log ++ [((), .returned call result)]))
      | (.aborted failure, w) => (.aborted failure, w)
      | (.hung, w) => (.hung, w) := by
  have unfolded : session fuel db (call :: calls) = (dbCall fuel db call >>= fun value =>
      .op (.note (.returned call value.1)) fun _ => session fuel value.2 calls) := rfl
  rw [unfolded, run_bind]
  rcases outcome : run () (dbCall fuel db call) (atRest files) with ⟨value | failure | _, w⟩
  · obtain ⟨-, world⟩ := call_returned standard outcome
    have noted : w.act () (.note (.returned call value.1)) =
        (atRest w.files).after (w.log ++ [((), .returned call value.1)]) := by
      rw [world]
      simp [World.act, World.after, atRest]
    simp only [run]
    rw [noted, run_after]
  · rfl
  · rfl

/-! ## What a session keeps -/

variable {plain whole : Prop} {kv : KV} {frozen : Fin nhashDef → Prop} {request : Request}
  {requests : List Request}

/-- The keys of the calls have no separator. -/
def PlainKeys (calls : List Call) : Prop :=
  ∀ request, Call.request request ∈ calls → sep ∉ request.key

/-- The outcome of calls that leave no record without a list. -/
def Linked {α : Type} (outcome : Outcome Failure α) : Prop :=
  ∀ failure, outcome = .aborted failure → ¬ failure.Unlinked

/-- The keys of the calls are admitted. -/
def AdmittedKeys (admitted : Bytes → Prop) (calls : List Call) : Prop :=
  ∀ request, Call.request request ∈ calls → admitted request.key

/-- The files hold some map with admitted keys. -/
def HoldsKeys (plain whole : Prop) (admitted : Bytes → Prop) (files : File → Bytes) : Prop :=
  ∃ kv frozen, Stored plain whole files kv frozen ∧ ∀ key data, kv key = some data → admitted key

variable {admitted : Bytes → Prop}

/-- Less may be asked of the records. -/
theorem HoldsKeys.weaken {whole' : Prop} (holds : HoldsKeys plain whole admitted files)
    (lessWhole : whole' → whole) : HoldsKeys plain whole' admitted files := by
  obtain ⟨kv, frozen, stored, held⟩ := holds
  exact ⟨kv, frozen, stored.weaken id lessWhole, held⟩

/-- Files that sessions make of those that `db_open` creates, where `allowed` says which calls
a session may make and how it may end. -/
inductive Reachable (fuel : Nat) (allowed : List Call → Outcome Failure Unit → Prop) :
    (File → Bytes) → Prop where
  /-- The files that `db_open` creates. -/
  | created : Reachable fuel allowed initialFiles
  /-- One more session. -/
  | session {files : File → Bytes} (calls : List Call) (before : Reachable fuel allowed files)
      (ends : allowed calls (run () (session fuel opened calls) (atRest files)).1) :
      Reachable fuel allowed (run () (session fuel opened calls) (atRest files)).2.files

/-- The returns of one log after the other. -/
theorem ownReturns_append (log log' : List (Unit × Note)) :
    ownReturns (log ++ log') () = ownReturns log () ++ ownReturns log' () :=
  List.filterMap_append

/-- A session goes on after a call that returned. -/
theorem session_call (calls : List Call) (standard : Standard db)
    (ends : run () (dbCall fuel db call) (atRest files) = (.returned (result, db'), w))
    (quiet : ownReturns w.log () = []) :
    (run () (session fuel db (call :: calls)) (atRest files)).1 =
        (run () (session fuel db' calls) (atRest w.files)).1 ∧
      (run () (session fuel db (call :: calls)) (atRest files)).2.files =
        (run () (session fuel db' calls) (atRest w.files)).2.files ∧
      ownReturns (run () (session fuel db (call :: calls)) (atRest files)).2.log () =
        (call, result) ::
          ownReturns (run () (session fuel db' calls) (atRest w.files)).2.log () := by
  rw [session_cons standard, ends]
  refine ⟨rfl, rfl, ?_⟩
  show ownReturns (w.log ++ [((), .returned call result)] ++ _) () = _
  rw [ownReturns_append, ownReturns_append, quiet]
  rfl

/-- A session of requests ends, and if it returns, it has the answers of the map. -/
theorem session_answers (stored : Stored plain whole files kv frozen) (standard : Standard db)
    (enough : ptrMax < fuel) (plainKeys : plain → ∀ request ∈ requests, sep ∉ request.key) :
    (∃ failure, (run () (session fuel db (requests.map .request)) (atRest files)).1 =
        .aborted failure) ∨
      ((run () (session fuel db (requests.map .request)) (atRest files)).1 = .returned () ∧
        ownReturns (run () (session fuel db (requests.map .request)) (atRest files)).2.log () =
          completed (mapRun kv requests) ∧
        ∃ frozen', Stored plain whole
          (run () (session fuel db (requests.map .request)) (atRest files)).2.files
          (mapAfter kv requests) frozen') := by
  induction requests generalizing db files kv frozen with
  | nil => exact .inr ⟨rfl, rfl, frozen, stored⟩
  | cons request requests rest =>
    have plainHere : plain → sep ∉ request.key := fun isPlain =>
      plainKeys isPlain request List.mem_cons_self
    have plainRest : plain → ∀ request ∈ requests, sep ∉ request.key := fun isPlain other mem =>
      plainKeys isPlain other (List.mem_cons_of_mem _ mem)
    rw [List.map_cons]
    rcases request_ends stored standard enough plainHere with
      ⟨result, db', w, ends, quiet, done⟩ | ⟨failure, w, ends, -⟩
    · have standard' := request_returned standard ends
      obtain ⟨frozen', stored'⟩ := done.stored
      have first : run () (dbCall fuel db (.request request)) (atRest files) =
          (.returned (result, db'), w) := ends
      obtain ⟨outcome, sameFiles, log⟩ :=
        session_call (requests.map .request) standard first quiet
      rw [outcome, sameFiles, log]
      rcases rest stored' standard' plainRest with aborted | ⟨returned, answers, final⟩
      · exact .inl aborted
      · refine .inr ⟨returned, ?_, final⟩
        rw [answers, done.answer]
        rfl
    · left
      refine ⟨failure, ?_⟩
      rw [session_cons standard]
      simp only [dbCall, ends]

end Session

end Db

end CodeLearning
