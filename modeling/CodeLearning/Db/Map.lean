import CodeLearning.Db.Code

/-!
# The finite map

What the database is for: a map from keys to data. `mapStep` is the answer of the map to a
request and the map after it, and `Replays` a run of requests with their answers. The second
part follows the records that a run takes off the free list and puts back.
-/

namespace CodeLearning

namespace Db

/-- Data of each key. -/
abbrev KV := Bytes → Option Bytes

/-- The answer of the map to a request, and the map after it. -/
def mapStep (kv : KV) : Request → Result × KV
  | .fetch key => (.data (kv key.bytes), kv)
  | .delete key =>
    if (kv key.bytes).isSome then (.status 0, Function.update kv key.bytes none)
    else (.status (-1), kv)
  | .store key data flag =>
    if flag ≠ dbInsert ∧ flag ≠ dbReplace ∧ flag ≠ dbStoreFlag then (.status (-1), kv)
    else if (kv key.bytes).isSome then
      if flag = dbInsert then (.status 1, kv)
      else (.status 0, Function.update kv key.bytes (some data.bytes))
    else if flag = dbReplace then (.status (-1), kv)
    else (.status 0, Function.update kv key.bytes (some data.bytes))

/-- Key of a request. -/
def Request.key : Request → Bytes
  | .fetch key => key.bytes
  | .store key _ _ => key.bytes
  | .delete key => key.bytes

/-- A store, unless its flag is none of the three, has data of a length that `db_store`
accepts. -/
def Request.Sized : Request → Prop
  | .fetch _ => True
  | .delete _ => True
  | .store _ data flag =>
    (flag ≠ dbInsert ∧ flag ≠ dbReplace ∧ flag ≠ dbStoreFlag) ∨
      ¬ (data.bytes.length + 1 < datlenMin ∨ data.bytes.length + 1 > datlenMax)

/-- A request depends on the data of its own key only. -/
theorem mapStep_answer {kv kv' : KV} {request : Request}
    (agree : kv' request.key = kv request.key) :
    (mapStep kv' request).1 = (mapStep kv request).1 := by
  cases request with
  | fetch key =>
    simp only [Request.key] at agree
    simp only [mapStep, agree]
  | store key data flag =>
    simp only [Request.key] at agree
    simp only [mapStep, agree]
    split
    · rfl
    · split
      · split <;> rfl
      · split <;> rfl
  | delete key =>
    simp only [Request.key] at agree
    simp only [mapStep, agree]
    split <;> rfl

/-- A request leaves the map as it is, or has the status `0` and changes the data of its key. -/
theorem mapStep_cases (kv : KV) (request : Request) :
    ((mapStep kv request).1 ≠ .status 0 ∧ (mapStep kv request).2 = kv) ∨
      ((mapStep kv request).1 = .status 0 ∧
        ∃ value, (mapStep kv request).2 = Function.update kv request.key value) := by
  cases request with
  | fetch key => exact .inl ⟨by simp [mapStep], rfl⟩
  | store key data flag =>
    simp only [mapStep]
    split
    · exact .inl ⟨by simp, rfl⟩
    · split
      · split
        · exact .inl ⟨by simp, rfl⟩
        · exact .inr ⟨rfl, some data.bytes, rfl⟩
      · split
        · exact .inl ⟨by simp, rfl⟩
        · exact .inr ⟨rfl, some data.bytes, rfl⟩
  | delete key =>
    simp only [mapStep]
    split
    · exact .inr ⟨rfl, none, rfl⟩
    · exact .inl ⟨by simp, rfl⟩

/-- A request changes the data of its own key only. -/
theorem mapStep_other (kv : KV) {request : Request} {k : Bytes} (other : k ≠ request.key) :
    (mapStep kv request).2 k = kv k := by
  rcases mapStep_cases kv request with ⟨-, same⟩ | ⟨-, value, changed⟩
  · rw [same]
  · rw [changed, Function.update_of_ne other]

/-- The map changes only with the status `0`. -/
theorem mapStep_still {kv : KV} {request : Request}
    (notZero : (mapStep kv request).1 ≠ .status 0) : (mapStep kv request).2 = kv := by
  rcases mapStep_cases kv request with ⟨-, same⟩ | ⟨isZero, -⟩
  · exact same
  · exact absurd isZero notZero

/-- What a request makes of its key depends on the data of its key only. -/
theorem mapStep_self {kv kv' : KV} {request : Request}
    (agree : kv' request.key = kv request.key) :
    (mapStep kv' request).2 request.key = (mapStep kv request).2 request.key := by
  cases request with
  | fetch key => exact agree
  | store key data flag =>
    simp only [Request.key] at agree ⊢
    simp only [mapStep, agree]
    split
    · exact agree
    · split
      · split <;> simp [agree]
      · split <;> simp [agree]
  | delete key =>
    simp only [Request.key] at agree ⊢
    simp only [mapStep, agree]
    split <;> simp [agree]

/-! ## Runs -/

section Runs

variable {P : Type}

/-- The map answers the requests in order, from one map to another. -/
def Replays : KV → List (P × Request × Result) → KV → Prop
  | kv, [], kv' => kv' = kv
  | kv, (_, request, result) :: rest, kv' =>
    result = (mapStep kv request).1 ∧ Replays (mapStep kv request).2 rest kv'

/-- One more request at the end. -/
theorem Replays.append {kv kv' : KV} {hist : List (P × Request × Result)}
    (replays : Replays kv hist kv') (p : P) (request : Request) :
    Replays kv (hist ++ [(p, request, (mapStep kv' request).1)]) (mapStep kv' request).2 := by
  induction hist generalizing kv with
  | nil =>
    have same : kv' = kv := replays
    rw [same]
    exact ⟨rfl, rfl⟩
  | cons first rest step => exact ⟨replays.1, step replays.2⟩

/-- The answers of the map to requests in order. -/
def mapRun : KV → List Request → List (Request × Result)
  | _, [] => []
  | kv, request :: requests =>
    (request, (mapStep kv request).1) :: mapRun (mapStep kv request).2 requests

/-- The map after requests in order. -/
def mapAfter (kv : KV) (requests : List Request) : KV :=
  requests.foldl (fun kv request => (mapStep kv request).2) kv

/-! ## The free list in the log -/

/-- Along the log, records are taken off the free list only while they are on it, and put on
it only while they are not. -/
def TakesFrom : (Nat → Prop) → List (P × Note) → (Nat → Prop) → Prop
  | on, [], on' => ∀ o, on' o ↔ on o
  | on, (_, .took off) :: rest, on' =>
    ∃ o : Nat, off = o ∧ on o ∧ TakesFrom (fun x => x ≠ o ∧ on x) rest on'
  | on, (_, .freed off) :: rest, on' =>
    ∃ o : Nat, off = o ∧ ¬ on o ∧ TakesFrom (fun x => x = o ∨ on x) rest on'
  | on, (_, .returned ..) :: rest, on' => TakesFrom on rest on'

variable {on on' on'' : Nat → Prop} {log : List (P × Note)}

/-- Only which records are on the list matters. -/
theorem TakesFrom.congr (takes : TakesFrom on log on') (same : ∀ o, on'' o ↔ on' o) :
    TakesFrom on log on'' := by
  induction log generalizing on with
  | nil => exact fun o => (same o).trans (takes o)
  | cons mark rest step =>
    obtain ⟨p, note⟩ := mark
    cases note with
    | took off =>
      obtain ⟨o, at_, isOn, later⟩ := takes
      exact ⟨o, at_, isOn, step later⟩
    | freed off =>
      obtain ⟨o, at_, isOff, later⟩ := takes
      exact ⟨o, at_, isOff, step later⟩
    | returned call result => exact step takes

/-- Two parts of a log. -/
theorem TakesFrom.append {log' : List (P × Note)} (first : TakesFrom on log on')
    (second : TakesFrom on' log' on'') : TakesFrom on (log ++ log') on'' := by
  induction log generalizing on with
  | nil =>
    have same : on' = on := funext fun o => propext (first o)
    rw [← same]
    exact second
  | cons mark rest step =>
    obtain ⟨p, note⟩ := mark
    cases note with
    | took off =>
      obtain ⟨o, at_, isOn, later⟩ := first
      exact ⟨o, at_, isOn, step later⟩
    | freed off =>
      obtain ⟨o, at_, isOff, later⟩ := first
      exact ⟨o, at_, isOff, step later⟩
    | returned call result => exact step first

/-- The first part of a log. -/
theorem TakesFrom.split {log' : List (P × Note)} (takes : TakesFrom on (log ++ log') on') :
    ∃ on₁, TakesFrom on log on₁ ∧ TakesFrom on₁ log' on' := by
  induction log generalizing on with
  | nil => exact ⟨on, fun o => Iff.rfl, takes⟩
  | cons mark rest step =>
    obtain ⟨p, note⟩ := mark
    cases note with
    | took off =>
      obtain ⟨o, at_, isOn, later⟩ := takes
      obtain ⟨on₁, before, after_⟩ := step later
      exact ⟨on₁, ⟨o, at_, isOn, before⟩, after_⟩
    | freed off =>
      obtain ⟨o, at_, isOff, later⟩ := takes
      obtain ⟨on₁, before, after_⟩ := step later
      exact ⟨on₁, ⟨o, at_, isOff, before⟩, after_⟩
    | returned call result => exact step takes

end Runs

end Db

end CodeLearning
