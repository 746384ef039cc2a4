import CodeLearning.Db.Refinement
import CodeLearning.Lib.Overtaking

/-!
# Processes on one database

Any number of processes make requests on one database, each through a handle of its own, and
their system calls interleave in any way the locks allow. The requests then have an order in
which they could have been made one at a time: it keeps the order of each process, its answers
are those of a map, and what the files hold at the end is what the map holds. The order is
that in which the processes unlock their chains. The library itself, one call at a time in that
order, does the same unless it comes to a record that does not fit, which can happen although no
call of the processes has failed.
-/

namespace CodeLearning

namespace Db

open FileProgram

variable {P : Type} [DecidableEq P] {fuel : Nat} {files : File → Bytes} {kv kv' : KV}
  {frozen : Fin nhashDef → Prop} {requests : P → List Request}
  {d : Config P File Failure Note Unit}

/-! ## One at a time -/

section Serial

variable {dbs : P → DB} {p : P} {request : Request} {calls : List (P × Request)} {result : Result}
  {db : DB} {w : World Unit File Note}

/-- Requests that are made one at a time, each through the handle of its process: what they
return and the files they leave, unless one of them fails. -/
def serialRun (fuel : Nat) : (P → DB) → (File → Bytes) → List (P × Request) →
    Option (List (P × Request × Result) × (File → Bytes))
  | _, files, [] => some ([], files)
  | dbs, files, (p, request) :: calls =>
    match run () (dbRequest fuel (dbs p) request) (atRest files) with
    | (.returned (result, db), w) =>
      (serialRun fuel (Function.update dbs p db) w.files calls).map fun (results, last) =>
        ((p, request, result) :: results, last)
    | _ => none

/-- The first request and those that follow. -/
theorem serialRun_cons
    (ends : run () (dbRequest fuel (dbs p) request) (atRest files) = (.returned (result, db), w)) :
    serialRun fuel dbs files ((p, request) :: calls) =
      (serialRun fuel (Function.update dbs p db) w.files calls).map fun (results, last) =>
        ((p, request, result) :: results, last) := by
  simp only [serialRun, ends]

/-- Requests made one at a time come to a store whose record does not fit in the index. -/
def Overflows (fuel : Nat) (dbs : P → DB) (files : File → Bytes) (calls : List (P × Request)) :
    Prop :=
  ∃ front p key data flag back results before,
    calls = front ++ (p, .store key data flag) :: back ∧
      serialRun fuel dbs files front = some (results, before) ∧
      ¬ AppendFits before key.bytes data.bytes

/-- A store that does not fit after the first request. -/
theorem Overflows.cons
    (ends : run () (dbRequest fuel (dbs p) request) (atRest files) = (.returned (result, db), w))
    (later : Overflows fuel (Function.update dbs p db) w.files calls) :
    Overflows fuel dbs files ((p, request) :: calls) := by
  obtain ⟨front, q, key, data, flag, back, results, before, rfl, runs, full⟩ := later
  refine ⟨(p, request) :: front, q, key, data, flag, back, (p, request, result) :: results, before,
    rfl, ?_, full⟩
  rw [serialRun_cons ends, runs]
  rfl

end Serial

/-! ## One process among others -/

section Process

variable {g : Setting P} {p : P} {s t : State P} {db : DB} {done remaining : List Request}

/-- A process between two calls, which has made the requests `done`. -/
structure Between (p : P) (done : List Request) (s : State P) : Prop where
  /-- It holds no lock. -/
  idle : Idle s p
  /-- It has no data outside of records. -/
  loose : s.loose p = none
  /-- Its requests. -/
  made : (ownRequests s.hist p).map Prod.fst = done
  /-- Their data has the right length. -/
  sized : ∀ entry ∈ ownRequests s.hist p, entry.1.Sized
  /-- All of them have returned. -/
  returned : ownReturns s.log p = completed (ownRequests s.hist p)

/-- Other processes do not disturb a process between two calls. -/
theorem Between.rely (between : Between p done s) (rely : Rely p s t) : Between p done t := by
  refine ⟨?_, rely.loose.trans between.loose, ?_, ?_, ?_⟩
  · intro file b
    rw [rely.locks]
    exact between.idle file b
  · rw [rely.requests]
    exact between.made
  · rw [rely.requests]
    exact between.sized
  · rw [rely.returns, rely.requests]
    exact between.returned

/-- The next request of the script may be made, and then return. -/
theorem Between.due (between : Between p done s) {request : Request}
    (script : g.script p = done ++ request :: remaining) (sized : request.Sized)
    (result : Result) :
    Follows (g.script p) (ownRequests s.hist p ++ [(request, result)]) (ownReturns s.log p) ∧
      Follows (g.script p) (ownRequests s.hist p ++ [(request, result)])
        (ownReturns s.log p ++ [(.request request, result)]) := by
  have made : (ownRequests s.hist p ++ [(request, result)]).map Prod.fst <+: g.script p := by
    rw [List.map_append, between.made, script]
    exact ⟨remaining, by simp⟩
  have allSized : ∀ entry ∈ ownRequests s.hist p ++ [(request, result)], entry.1.Sized := by
    intro entry mem
    rcases List.mem_append.mp mem with before | now
    · exact between.sized entry before
    · rw [List.mem_singleton.mp now]
      exact sized
  refine ⟨⟨made, allSized, .inr ⟨_, _, rfl, between.returned⟩⟩, ⟨made, allSized, .inl ?_⟩⟩
  rw [between.returned]
  simp [completed]

end Process

/-! ## Pools -/

section Pool

variable {whole : Prop} {recs : Nat → Option Entry} {head : Place → Nat}

section Overtaking

variable {together : Bool → List Request} {n : Nat}

/-- One process makes `n` system calls, then the other one makes all its requests, and then the
first goes on. -/
def overtaken (files : File → Bytes) (together : Bool → List Request) (n : Nat) :
    DbProg Unit × DbProg Unit × World Bool File Note :=
  overtake true false n 100 100 (session (ptrMax + 1) opened ((together true).map .request))
    (session (ptrMax + 1) opened ((together false).map .request)) (atRest files)

/-- The locks let the other process go first, and both make all their requests. -/
def Overtakes (files : File → Bytes) (together : Bool → List Request) (n : Nat) : Prop :=
  MayOvertake true false n 100 (session (ptrMax + 1) opened ((together true).map .request))
      (session (ptrMax + 1) opened ((together false).map .request)) (atRest files) ∧
    (overtaken files together n).1.value = some () ∧
    (overtaken files together n).2.1.value = some ()

/-- Whether they do can be decided. -/
instance : Decidable (Overtakes files together n) := inferInstanceAs (Decidable (_ ∧ _ ∧ _))

/-- That is a run of the processes. -/
theorem Overtakes.reaches (overtakes : Overtakes files together n) :
    Reaches (pool (ptrMax + 1) files fun p => (together p).map .request)
      { world := (overtaken files together n).2.2, procs := fun _ => .running (.ret ()) } := by
  obtain ⟨may, first, second⟩ := overtakes
  have reaches := reaches_overtake (c := pool (ptrMax + 1) files fun p => (together p).map .request)
    100 Bool.false_ne_true rfl rfl (fun _ _ _ => rfl) may
  have procs : Function.update (Function.update
      (pool (ptrMax + 1) files fun p => (together p).map .request).procs
        true (.running (overtaken files together n).1))
        false (.running (overtaken files together n).2.1) = fun _ => .running (.ret ()) := by
    funext p
    cases p with
    | true =>
      rw [Function.update_of_ne (by decide), Function.update_self, Prog.eq_ret first]
    | false => rw [Function.update_self, Prog.eq_ret second]
  rw [← procs]
  exact reaches

end Overtaking

/-! ## Serialisability -/

/-- All calls of the processes in an order that keeps that of each process. -/
def KeepsOrder (requests : P → List Request) (calls : List (P × Request)) : Prop :=
  ∀ p, (calls.filter (·.1 = p)).map Prod.snd = requests p

section Order

variable {calls : List (P × Request)}

/-- The first call of such an order, and those that follow. -/
theorem KeepsOrder.first (keeps : KeepsOrder requests calls) :
    (calls = [] ∧ ∀ p, requests p = []) ∨
      ∃ p request later rest, calls = (p, request) :: rest ∧ requests p = request :: later ∧
        KeepsOrder (Function.update requests p later) rest := by
  cases calls with
  | nil => exact .inl ⟨rfl, fun p => (keeps p).symm⟩
  | cons call rest =>
    obtain ⟨p, request⟩ := call
    refine .inr ⟨p, request, (rest.filter (·.1 = p)).map Prod.snd, rest, rfl, ?_, ?_⟩
    · rw [← keeps p, List.filter_cons_of_pos (by simp), List.map_cons]
    · intro q
      by_cases mine : q = p
      · rw [mine, Function.update_self]
      · have other := keeps q
        rw [List.filter_cons_of_neg (by simpa using Ne.symm mine)] at other
        rw [Function.update_of_ne mine, other]

/-- The order of the calls of one process alone. -/
theorem KeepsOrder.alone {p : P} (keeps : KeepsOrder requests calls)
    (others : ∀ q, q ≠ p → requests q = []) :
    calls = (requests p).map fun request => (p, request) := by
  induction calls generalizing requests with
  | nil =>
    rw [← keeps p]
    rfl
  | cons call rest next =>
    rcases keeps.first with ⟨empty, -⟩ | ⟨q, request, later, rest', same, own, keeps'⟩
    · cases empty
    · have mine : q = p := by
        by_contra other
        rw [others q other] at own
        cases own
      subst mine
      cases same
      rw [own, List.map_cons, next keeps' fun r other => by
        rw [Function.update_of_ne other, others r other], Function.update_self]

/-- One call of a process among two of another one. -/
theorem KeepsOrder.among {requests : Bool → List Request} {calls : List (Bool × Request)}
    {first second third : Request} (keeps : KeepsOrder requests calls)
    (one : requests true = [first]) (two : requests false = [second, third]) :
    calls = [(true, first), (false, second), (false, third)] ∨
      calls = [(false, second), (true, first), (false, third)] ∨
      calls = [(false, second), (false, third), (true, first)] := by
  rcases keeps.first with ⟨-, empty⟩ | ⟨p, request, later, rest, rfl, own, keeps'⟩
  · rw [empty] at one
    cases one
  cases p with
  | true =>
    rw [one] at own
    cases own
    left
    rw [keeps'.alone (p := false) (by simp), Function.update_of_ne (by decide), two]
    rfl
  | false =>
    right
    rw [two] at own
    cases own
    rcases keeps'.first with ⟨-, empty⟩ | ⟨p, request, later, rest, rfl, own, keeps''⟩
    · have none_ := empty false
      rw [Function.update_self] at none_
      cases none_
    cases p with
    | true =>
      rw [Function.update_of_ne (by decide), one] at own
      cases own
      left
      rw [keeps''.alone (p := false) (by simp), Function.update_of_ne (by decide),
        Function.update_self]
      rfl
    | false =>
      rw [Function.update_self] at own
      cases own
      right
      rw [keeps''.alone (p := true) (by simp), Function.update_of_ne (by decide),
        Function.update_of_ne (by decide), one]
      rfl

end Order

end Pool

end Db

end CodeLearning
