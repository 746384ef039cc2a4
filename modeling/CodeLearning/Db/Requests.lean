import CodeLearning.Db.Operations

/-!
# Requests

What `db_fetch`, `db_store` and `db_delete` do as a whole: one answer of the map when they
return, and when they fail, the reason and what is left of the chain. A request takes effect
when it unlocks its chain.
-/

namespace CodeLearning

namespace Db

open FileProgram ByteFile Decimal

variable {P : Type} [DecidableEq P] {α : Type} {g : Setting P} {p : P} {s t u : State P}
  {h : Fin nhashDef} {o v : Nat} {e : Entry} {post : α → State P → Prop}
  {fail : Failure → State P → Prop} {db : DB} {mode : LockMode} {request : Request}

/-! ## Finding a key -/

/-- A handle that is set to a chain. -/
structure Aimed (db : DB) (h : Fin nhashDef) : Prop extends Standard db where
  /-- The chain. -/
  chainoff : db.chainoff = (Place.chain h).off

/-- The chain that a handle points to is kept. -/
theorem Aimed.kept {db' : DB} (aimed : Aimed db h) (kept : Kept db db') : Aimed db' h :=
  ⟨aimed.toStandard.kept kept, kept.chainoff.trans aimed.chainoff⟩

/-- The process holds no lock. -/
def Idle (s : State P) (p : P) : Prop := ∀ file b, s.locks p file b = none

/-- A process that held no lock has locked a chain. -/
structure Began (p : P) (h : Fin nhashDef) (mode : LockMode) (s t : State P) : Prop where
  /-- Its locks. -/
  locks : ∀ file b, t.locks p file b =
    if file = .idx ∧ (Place.chain h).lockRange.Contains b then some mode else none
  /-- Its requests. -/
  requests : ownRequests t.hist p = ownRequests s.hist p
  /-- Its calls that have returned. -/
  returns : ownReturns t.log p = ownReturns s.log p
  /-- Its data outside of records. -/
  loose : t.loose p = s.loose p
  /-- Everything else, when it is alone. -/
  alone : Subsingleton P → t.kv = s.kv ∧ (∀ c, t.part c = s.part c) ∧ t.files = s.files

/-- The lock of the chain, and no other. -/
theorem Began.lock (began : Began p h mode s t) :
    t.locks p .idx (Place.chain h).off = some mode := by
  rw [began.locks, if_pos ⟨rfl, Place.lockRange_contains.mpr rfl⟩]

/-- A request that began may read its chain. -/
theorem Began.sees (began : Began p h mode s t) : t.Sees p (.chain h) := by
  rw [State.Sees, began.lock]
  simp

/-- A process that locked a chain for writing owns it. -/
theorem Began.holding (began : Began p h .write s t) : Holding t p h := by
  refine ⟨began.lock, ?_, ?_, ?_⟩
  · have notFree : ¬ (Place.chain h).lockRange.Contains Place.free.off := fun inside =>
      absurd (Place.lockRange_contains.mp inside) (by simp)
    have free := began.locks .idx freeOff
    rw [if_neg fun inside => notFree inside.2] at free
    exact free
  · intro b inTail
    have before := (Place.chain h).off_lt
    have outside : ¬ (Place.chain h).lockRange.Contains b := by
      simp only [Place.lockRange, Range.Contains, ptrSz] at before ⊢
      omega
    rw [began.locks, if_neg fun inside => outside inside.2]
  · intro b
    rw [began.locks, if_neg fun inside => absurd inside.1 (by simp)]

/-- The failure of a process that reads a record with a separator in its key. -/
def unreadable : Failure := .errDump "_db_readidx: too many separators"

omit [DecidableEq P] in
/-- The pointer of the chain of a key, as the library finds it. -/
theorem Standard.chainoff (standard : Standard db) (key : Bytes) :
    ((dbHash db key * ptrSz : Nat) : Int) + db.hashoff = (Place.chain (bucket key)).off := by
  rw [standard.hashoff, dbHash, standard.nhash]
  simp [Place.off, bucket]

/-- `_db_find_and_lock`. -/
theorem wp_findAndLock {key : Bytes} {fuel : Nat} {f : Int × DB → DbProg α}
    (standard : Standard db) (idle : Idle s p) (enough : ptrMax < fuel)
    (inChain : bucket key = h)
    (absent : ∀ t db', Began p h mode s t → Aimed db' h → Chain (t.part (.chain h)) h t.kv →
      t.kv key = none → g.wp p (f (-1, db')) post fail t)
    (present : ∀ t db' o e front back, Began p h mode s t → Aimed db' h →
      Chain (t.part (.chain h)) h t.kv → t.kv key = some e.data →
      Loaded db' db' o e.toSlot → db'.ptroff = linkOff (.chain h) front →
      (t.part (.chain h)).Walk (front ++ o :: back) →
      (t.part (.chain h)).entries o = some e → e.key = key → g.wp p (f (0, db')) post fail t)
    (frozen : ∀ t u, Began p h mode s t → Rely p t u → Inv g u → Frozen (t.part (.chain h)) →
      fail unreadable u) :
    g.wp p (dbFindAndLock fuel db key mode >>= f) post fail s := by
  have chainoff : ((dbHash db key * ptrSz : Nat) : Int) + db.hashoff = (Place.chain h).off :=
    inChain ▸ standard.chainoff key
  simp only [dbFindAndLock, chainoff, byteAt_off (c := .chain h) rfl, Prog.lock_bind,
    Prog.op_bind, Prog.seq_assoc]
  apply wp_lock
  · exact fun b _ => idle .idx b
  intro t rely inv parts
  have began : Began p h mode s (t.setLocks p .idx (Place.chain h).lockRange (some mode)) := by
    refine ⟨?_, rely.requests, rely.returns, rely.loose, ?_⟩
    · intro file b
      rw [locks_setLocks_self, rely.locks, idle file b]
    · intro single
      rw [rely.alone single]
      exact ⟨rfl, fun _ => rfl, rfl⟩
  have ok : ChainOk ((t.setLocks p .idx (Place.chain h).lockRange (some mode)).part (.chain h)) h
      (t.setLocks p .idx (Place.chain h).lockRange (some mode)).kv :=
    parts (.chain h) rfl (Place.lockRange_contains.mpr rfl)
  generalize t.setLocks p .idx (Place.chain h).lockRange (some mode) = t₁ at began ok ⊢
  have sees := began.sees
  apply wp_readptr (c := .chain h) rfl sees
  intro pos
  rcases ok with isFrozen | chain
  · -- The first record cannot be read.
    obtain ⟨e, found, mem⟩ := isFrozen
    apply wp_valid sees found
    intro _ past
    obtain ⟨fuel, rfl⟩ : ∃ n, fuel = n + 1 := ⟨fuel - 1, by omega⟩
    have nonzero : ¬ (t₁.head (.chain h) : Int) = 0 := by
      simp only [State.part, tableEnd, nhashDef, ptrSz] at past
      omega
    simp only [findLoop, nonzero, if_false, Prog.seq_assoc]
    apply wp_readidx_sep rfl sees found mem
    intro u rely₁ inv₁
    exact frozen t₁ u began rely₁ inv₁ ⟨e, found, mem⟩
  · apply wp_sound sees
    intro headLe records
    have ptrLe : ∀ o e, (t₁.part (.chain h)).entries o = some e → e.ptr ≤ ptrMax :=
      fun o e found => (records o e found).1.ptr_le
    obtain ⟨l, walk⟩ := chain.walk
    have short := walk.length_le headLe ptrLe
    apply wp_findLoop [] sees walk walk.path chain.plain (by simp)
      (Nat.lt_of_le_of_lt short enough) rfl
    · intro db' kept none_
      simp only [if_true, Prog.pure_eq, Prog.ret_bind]
      apply absent t₁ db' began _ chain (chain.absent key inChain none_)
      exact ⟨⟨kept.hashoff.trans standard.hashoff, kept.nhash.trans standard.nhash⟩,
        kept.chainoff⟩
    · intro db' o e front back loaded kept link walk' found same
      have past := (records o e found).2
      have nonzero : ¬ (o : Int) = 0 := by
        simp only [tableEnd, nhashDef, ptrSz] at past
        omega
      simp only [nonzero, if_false, Prog.pure_eq, Prog.ret_bind]
      have value := chain.present o e found
      rw [same] at value
      apply present t₁ db' o e front back began _ chain value loaded link walk' found same
      exact ⟨⟨kept.hashoff.trans standard.hashoff, kept.nhash.trans standard.nhash⟩,
        kept.chainoff⟩

/-! ## How a request ends -/

/-- The request replaces data by data of another length. -/
def Resizes (kv : KV) (key data : CString) (flag : Int) : Prop :=
  ∃ old, kv key.bytes = some old ∧ flag ≠ dbInsert ∧ data.bytes.length ≠ old.length

/-- A request has returned. -/
structure Returned (p : P) (request : Request) (s t : State P) (result : Result) (db : DB) :
    Prop where
  /-- The handle is ready for the next call. -/
  standard : Standard db
  /-- All locks are dropped. -/
  idle : Idle t p
  /-- All data is entered. -/
  loose : t.loose p = none
  /-- The request has taken effect, or has none. -/
  requests : ownRequests t.hist p = ownRequests s.hist p ++ [(request, result)] ∨
    (ownRequests t.hist p = ownRequests s.hist p ∧ ∀ kv, mapStep kv request = (result, kv))
  /-- Its data has the right length. -/
  sized : request.Sized
  /-- Its return is not yet noted. -/
  returns : ownReturns t.log p = ownReturns s.log p
  /-- Other chains stay, when the process is alone. -/
  others : Subsingleton P → ∀ h, h ≠ bucket request.key → t.part (.chain h) = s.part (.chain h)
  /-- All chains stay unless the status is `0`. -/
  still : Subsingleton P → result ≠ .status 0 → ∀ h, t.part (.chain h) = s.part (.chain h)
  /-- A record appended for data of another length fits. -/
  fits : Subsingleton P → ∀ key data flag, request = .store key data flag → result = .status 0 →
    Resizes s.kv key data flag → AppendFits s.files key.bytes data.bytes
  /-- The data file has grown by one record at most. -/
  grown : Subsingleton P → (t.files .dat).length ≤ (s.files .dat).length + datlenMax

/-- Why a request fails, and what is left of its chain. -/
inductive Stopped (s u : State P) (failure : Failure) : Request → Prop where
  /-- The chain cannot be read. -/
  | frozen {request : Request} (isFrozen : Frozen (s.part (.chain (bucket request.key))))
      (same : u.part (.chain (bucket request.key)) = s.part (.chain (bucket request.key))) :
      Stopped s u failure request
  /-- The data is too short or too long. -/
  | length {key data : CString} {flag : Int} (bad : ¬ Request.Sized (.store key data flag))
      (same : u.part (.chain (bucket key.bytes)) = s.part (.chain (bucket key.bytes))) :
      Stopped s u failure (.store key data flag)
  /-- A record for a new key cannot be appended. -/
  | absent {key data : CString} {flag : Int}
      (grows : (s.files .dat).length < (u.files .dat).length)
      (chain : Chain (s.part (.chain (bucket key.bytes))) (bucket key.bytes) s.kv)
      (none_ : s.kv key.bytes = none)
      (left : AppendLeft s.files key.bytes data.bytes failure
        (s.part (.chain (bucket key.bytes))) (u.part (.chain (bucket key.bytes)))) :
      Stopped s u failure (.store key data flag)
  /-- A record for data of another length cannot be appended, after the old one was freed. -/
  | present {key data : CString} {flag : Int} {A : Part} (resizes : Resizes s.kv key data flag)
      (grows : (s.files .dat).length < (u.files .dat).length)
      (before : Chain (s.part (.chain (bucket key.bytes))) (bucket key.bytes) s.kv)
      (chain : Chain A (bucket key.bytes) (Function.update s.kv key.bytes none))
      (left : AppendLeft s.files key.bytes data.bytes failure A
        (u.part (.chain (bucket key.bytes)))) :
      Stopped s u failure (.store key data flag)

/-- A request has failed. -/
structure Failed (p : P) (request : Request) (s : State P) (failure : Failure) (u : State P) :
    Prop where
  /-- No list but the chain is locked for writing. -/
  locks : ∀ c, c ≠ .chain (bucket request.key) → ¬ u.Owns p c
  /-- Other chains stay. -/
  others : ∀ h, h ≠ bucket request.key → u.part (.chain h) = s.part (.chain h)
  /-- The request has not taken effect. -/
  kv : u.kv = s.kv
  /-- The reason. -/
  reason : Stopped s u failure request

/-- What a process that makes a request starts from. -/
structure Ready (g : Setting P) (p : P) (request : Request) (s : State P) (db : DB) : Prop where
  /-- The handle is ready. -/
  standard : Standard db
  /-- It holds no lock. -/
  idle : Idle s p
  /-- It has no data outside of records. -/
  loose : s.loose p = none
  /-- The request is next in its script. -/
  due : request.Sized → ∀ result,
    Follows (g.script p) (ownRequests s.hist p ++ [(request, result)]) (ownReturns s.log p)
  /-- Its key has no separator where none has. -/
  plain : g.plain → sep ∉ request.key

/-- Unlocking the chain, the last step of a request. -/
theorem wp_finish {result : Result} {off : Int} {db' : DB} (ready : Ready g p request s db)
    (began : Began p (bucket request.key) mode s t)
    (carried : Carried p (bucket request.key) t u) (loose : u.loose p = t.loose p)
    (here : off = (Place.chain (bucket request.key)).off) (standard : Standard db')
    (right : mode = .write ∨ ∀ kv, (mapStep kv request).2 = kv) (sized : request.Sized)
    (answer : (mapStep t.kv request).1 = result)
    (ok : ChainOk (u.part (.chain (bucket request.key))) (bucket request.key)
      (mapStep t.kv request).2)
    (still : Subsingleton P → result ≠ .status 0 →
      u.part (.chain (bucket request.key)) = t.part (.chain (bucket request.key)))
    (fits : Subsingleton P → ∀ key data flag, request = .store key data flag →
      result = .status 0 → Resizes s.kv key data flag →
        AppendFits s.files key.bytes data.bytes)
    (grown : Subsingleton P → (u.files .dat).length ≤ (t.files .dat).length + datlenMax) :
    g.wp p (.op (.unlock .idx (byteAt off)) fun _ => .ret (result, db'))
      (fun value t => Returned p request s t value.1 value.2)
      (fun failure u => Subsingleton P → Failed p request s failure u) u := by
  have seesU : u.Sees p (.chain (bucket request.key)) := by
    rw [State.Sees, carried.locks]
    exact began.sees
  have agree : ∀ k, bucket k = bucket request.key → u.kv k = t.kv k := carried.kv
  have answerU : (mapStep u.kv request).1 = result :=
    (mapStep_answer (agree request.key rfl)).trans answer
  have okU : ChainOk (u.part (.chain (bucket request.key))) (bucket request.key)
      (mapStep u.kv request).2 := by
    rcases ok with frozen | chain
    · exact .inl frozen
    · refine .inr (chain.congr ?_)
      intro k inChain
      by_cases same : k = request.key
      · rw [same]
        exact mapStep_self (agree request.key rfl)
      · rw [mapStep_other u.kv same, mapStep_other t.kv same]
        exact agree k inChain
  have parts : Subsingleton P → ∀ h, h ≠ bucket request.key →
      u.part (.chain h) = s.part (.chain h) := by
    intro single h differ
    rw [(carried.alone single).2 h differ, (began.alone single).2.1]
  rw [byteAt_off here]
  apply wp_commit rfl seesU _ _ okU
  · -- What the others do after the commit does not matter.
    intro t' rely _
    refine ⟨standard, ?_, ?_, .inl ?_, sized, ?_, ?_, ?_, fits, ?_⟩
    · intro file b
      rw [rely.locks]
      show (u.setLocks p .idx _ none).locks p file b = none
      rw [locks_setLocks_self, carried.locks, began.locks]
      by_cases inside : file = .idx ∧ (Place.chain (bucket request.key)).lockRange.Contains b
      · rw [if_pos inside]
      · rw [if_neg inside, if_neg inside]
    · rw [rely.loose]
      exact loose.trans (began.loose.trans ready.loose)
    · rw [rely.requests]
      show ownRequests (u.hist ++ [(p, request, _)]) p = _
      rw [ownRequests_append_self, carried.requests, began.requests, answerU]
    · rw [rely.returns]
      exact carried.returns.trans began.returns
    · intro single h differ
      rw [rely.alone single]
      exact parts single h differ
    · intro single notZero h
      rw [rely.alone single]
      by_cases same : h = bucket request.key
      · rw [same]
        exact (still single notZero).trans ((began.alone single).2.1 _)
      · exact parts single h same
    · intro single
      rw [rely.alone single, ← (began.alone single).2.2]
      exact grown single
  · rcases right with isWrite | reads
    · left
      rw [State.Owns, carried.locks, began.lock, isWrite]
    · exact .inr reads
  · intro result'
    rw [carried.requests, began.requests, carried.returns, began.returns]
    exact ready.due sized result'

/-- The last step of a request that has changed nothing. -/
theorem wp_finish_idle {result : Result} {off : Int} {db' : DB} (ready : Ready g p request s db)
    (began : Began p (bucket request.key) mode s t)
    (here : off = (Place.chain (bucket request.key)).off) (standard : Standard db')
    (right : mode = .write ∨ ∀ kv, (mapStep kv request).2 = kv) (sized : request.Sized)
    (chain : Chain (t.part (.chain (bucket request.key))) (bucket request.key) t.kv)
    (step : mapStep t.kv request = (result, t.kv))
    (notStored : ∀ key data flag, request = .store key data flag → result ≠ .status 0) :
    g.wp p (.op (.unlock .idx (byteAt off)) fun _ => .ret (result, db'))
      (fun value t => Returned p request s t value.1 value.2)
      (fun failure u => Subsingleton P → Failed p request s failure u) t := by
  refine wp_finish ready began ((Rely.refl p t).carried began.sees) rfl here standard right sized
    ?_ ?_ (fun _ _ => rfl) ?_ (SameSize.refl t).grown
  · rw [step]
  · rw [step]
    exact .inr chain
  · intro _ key data flag isStore isZero
    exact absurd isZero (notStored key data flag isStore)

/-- A request that fails has kept what it carries. -/
theorem Failed.of_carried {failure : Failure} (began : Began p (bucket request.key) mode s t)
    (carried : Carried p (bucket request.key) t u) (single : Subsingleton P)
    (reason : Stopped s u failure request) : Failed p request s failure u := by
  obtain ⟨kv, parts, -⟩ := began.alone single
  obtain ⟨kvU, partsU⟩ := carried.alone single
  refine ⟨?_, ?_, kvU.trans kv, reason⟩
  · intro c differ owns
    have outside : ¬ (Place.chain (bucket request.key)).lockRange.Contains c.off := fun inside =>
      differ (Place.lockRange_contains.mp inside)
    rw [State.Owns, carried.locks, began.locks, if_neg fun inside => outside inside.2] at owns
    cases owns
  · intro h differ
    rw [partsU h differ, parts]

/-- A request on a chain that cannot be read fails. -/
theorem Failed.of_frozen {failure : Failure} (began : Began p (bucket request.key) mode s t)
    (rely : Rely p t u) (isFrozen : Frozen (t.part (.chain (bucket request.key))))
    (single : Subsingleton P) : Failed p request s failure u := by
  apply Failed.of_carried began (rely.carried began.sees) single
  obtain ⟨-, parts, -⟩ := began.alone single
  apply Stopped.frozen
  · rw [← parts]
    exact isFrozen
  · rw [rely.alone single, parts]

/-! ## The three requests -/

/-- A request that a process makes ends as the map says, or fails. -/
def Answers (g : Setting P) (p : P) (fuel : Nat) (request : Request) (s : State P) (db : DB) :
    Prop :=
  g.wp p (dbRequest fuel db request)
    (fun value t => Returned p request s t value.1 value.2)
    (fun failure u => Subsingleton P → Failed p request s failure u) s

/-- `db_fetch`. -/
theorem wp_fetch {key : CString} {fuel : Nat} (enough : ptrMax < fuel)
    (ready : Ready g p (.fetch key) s db) : Answers g p fuel (.fetch key) s db := by
  simp only [Answers, dbRequest, dbFetch, Prog.seq_assoc]
  have reads : ∀ kv, (mapStep kv (.fetch key)).2 = kv := fun _ => rfl
  have notStore : ∀ key' data flag, Request.fetch key ≠ .store key' data flag := by simp
  apply wp_findAndLock ready.standard ready.idle enough rfl
  · intro t db' began aimed chain none_
    simp only [fetchFound, Prog.ret_bind, Prog.unlock_bind, Prog.pure_eq,
      show ((-1 : Int) < 0) from by decide, if_true]
    have step : mapStep t.kv (.fetch key) = (.data none, t.kv) := by simp only [mapStep, none_]
    exact wp_finish_idle ready began aimed.chainoff ⟨aimed.hashoff, aimed.nhash⟩ (.inr reads)
      trivial
      chain step fun key' data flag isStore => absurd isStore (notStore key' data flag)
  · intro t db' o e front back began aimed chain value loaded _ _ found _
    simp only [fetchFound, show ¬ ((0 : Int) < 0) from by decide, if_false, Prog.seq_assoc]
    apply wp_readdat began.sees found loaded.datoff loaded.datlen
    simp only [Prog.ret_bind, Prog.unlock_bind, Prog.pure_eq]
    have step : mapStep t.kv (.fetch key) = (.data (some e.data), t.kv) := by
      simp only [mapStep, value]
    exact wp_finish_idle ready began aimed.chainoff ⟨aimed.hashoff, aimed.nhash⟩ (.inr reads)
      trivial
      chain step fun key' data flag isStore => absurd isStore (notStore key' data flag)
  · intro t u began rely _ isFrozen
    exact Failed.of_frozen began rely isFrozen

/-- `db_delete`. -/
theorem wp_delete {key : CString} {fuel : Nat} (enough : ptrMax < fuel)
    (ready : Ready g p (.delete key) s db) : Answers g p fuel (.delete key) s db := by
  simp only [Answers, dbRequest, dbDelete, Prog.seq_assoc]
  have notStore : ∀ key' data flag, Request.delete key ≠ .store key' data flag := by simp
  apply wp_findAndLock ready.standard ready.idle enough rfl
  · intro t db' began aimed chain none_
    have step : mapStep t.kv (.delete key) = (.status (-1), t.kv) := by simp [mapStep, none_]
    simp only [deleteFound, Prog.ret_bind, Prog.unlock_bind, Prog.pure_eq,
      show ¬ ((-1 : Int) = 0) from by decide, if_false]
    exact wp_finish_idle ready began aimed.chainoff ⟨aimed.hashoff, aimed.nhash⟩ (.inl rfl) trivial
      chain step fun key' data flag isStore => absurd isStore (notStore key' data flag)
  · intro t db' o e front back began aimed chain value loaded link walk found same
    have step : mapStep t.kv (.delete key) =
        (.status 0, Function.update t.kv key.bytes none) := by simp [mapStep, value]
    simp only [deleteFound, if_true, Prog.seq_assoc]
    apply wp_dodelete began.holding walk found loaded link
    intro u db₁ kept carried part loose sizes
    simp only [Prog.ret_bind, Prog.unlock_bind, Prog.pure_eq]
    refine wp_finish ready began carried loose (kept.chainoff.trans aimed.chainoff)
      ⟨kept.hashoff.trans aimed.hashoff, kept.nhash.trans aimed.nhash⟩ (.inl rfl) trivial
      ?_ ?_ ?_ ?_ sizes.grown
    · rw [step]
    · show ChainOk (u.part (.chain (bucket key.bytes))) (bucket key.bytes) _
      rw [step, part]
      right
      have unlinked := chain.unlink walk found
      rw [same] at unlinked
      exact unlinked
    · exact fun _ notZero => absurd rfl notZero
    · exact fun _ key' data flag isStore => absurd isStore (notStore key' data flag)
  · intro t u began rely _ isFrozen
    exact Failed.of_frozen began rely isFrozen

/-- A chain after a record for a new key was linked in: it can be read unless the key has a
separator. -/
theorem ChainOk.push {A B : Part} {kv : KV} {key data : Bytes} (chain : Chain A h kv)
    (pushed : Pushed A B key data) (inChain : bucket key = h) (absent : kv key = none) :
    ChainOk B h (Function.update kv key (some data)) := by
  obtain ⟨new, nonnull, points, rfl, rfl, rfl⟩ := pushed
  rename_i o e
  have newKey : ∀ o' e', A.entries o' = some e' → e'.key ≠ e.key := by
    intro o' e' found same
    have present := chain.present o' e' found
    rw [same, absent] at present
    cases present
  by_cases plain : sep ∈ e.key
  · left
    exact ⟨e, by simp [Part.put, Part.setHead], plain⟩
  · exact .inr (chain.push new nonnull points inChain plain newKey)

section Store

variable {key data : CString} {flag : Int} {fuel : Nat}
  {f : Int × DB → DbProg (Result × DB)}

omit [DecidableEq P] in
/-- A length that `db_store` accepts. -/
theorem sized_of_bounds (dataPos : 0 < data.bytes.length)
    (dataLt : data.bytes.length < datlenMax) : Request.Sized (.store key data flag) := by
  right
  simp only [datlenMin]
  omega

/-- The last step of a `db_store` that has put a record at the front of a chain without its key. -/
theorem wp_finish_pushed {A : Part} {kv : KV} {off : Int} {db' : DB}
    (ready : Ready g p (.store key data flag) s db)
    (began : Began p (bucket key.bytes) .write s t)
    (carried : Carried p (bucket key.bytes) t u) (loose : u.loose p = none)
    (here : off = (Place.chain (bucket key.bytes)).off) (standard : Standard db')
    (sized : Request.Sized (.store key data flag)) (chain : Chain A (bucket key.bytes) kv)
    (absent : kv key.bytes = none)
    (pushed : Pushed A (u.part (.chain (bucket key.bytes))) key.bytes data.bytes)
    (step : mapStep t.kv (.store key data flag) =
      (.status 0, Function.update kv key.bytes (some data.bytes)))
    (fits : Subsingleton P → Resizes s.kv key data flag → AppendFits s.files key.bytes data.bytes)
    (grown : Subsingleton P → (u.files .dat).length ≤ (t.files .dat).length + datlenMax) :
    g.wp p (.op (.unlock .idx (byteAt off)) fun _ => .ret (.status 0, db'))
      (fun value t => Returned p (.store key data flag) s t value.1 value.2)
      (fun failure u => Subsingleton P → Failed p (.store key data flag) s failure u) u := by
  refine wp_finish ready began carried ?_ here standard (.inl rfl) sized ?_ ?_ ?_ ?_ grown
  · rw [loose, began.loose, ready.loose]
  · rw [step]
  · rw [step]
    exact ChainOk.push chain pushed rfl absent
  · exact fun _ notZero => absurd rfl notZero
  · intro single key' data' flag' isStore _
    obtain ⟨rfl, rfl, rfl⟩ := Request.store.inj isStore
    exact fits single

/-- `db_store` of a key that is not found. -/
theorem wp_storeAbsent {db' : DB} (enough : ptrMax < fuel)
    (ready : Ready g p (.store key data flag) s db)
    (legal : ¬ (flag ≠ dbInsert ∧ flag ≠ dbReplace ∧ flag ≠ dbStoreFlag))
    (dataPos : 0 < data.bytes.length) (dataLt : data.bytes.length < datlenMax)
    (end_ : ∀ rc db, f (rc, db) =
      .op (.unlock .idx (byteAt db.chainoff)) fun _ => .ret (.status rc, db))
    (began : Began p (bucket key.bytes) .write s t) (aimed : Aimed db' (bucket key.bytes))
    (chain : Chain (t.part (.chain (bucket key.bytes))) (bucket key.bytes) t.kv)
    (none_ : t.kv key.bytes = none) :
    g.wp p (storeAbsent fuel db' key.bytes data.bytes flag >>= f)
      (fun value t => Returned p (.store key data flag) s t value.1 value.2)
      (fun failure u => Subsingleton P → Failed p (.store key data flag) s failure u) t := by
  have sized : Request.Sized (.store key data flag) := sized_of_bounds dataPos dataLt
  by_cases isReplace : flag = dbReplace
  · have step : mapStep t.kv (.store key data flag) = (.status (-1), t.kv) := by
      simp only [mapStep, if_neg legal, none_, Option.isSome_none, Bool.false_eq_true, if_false,
        if_pos isReplace]
    simp only [storeAbsent, if_pos isReplace, Prog.ret_bind, end_]
    exact wp_finish_idle ready began aimed.chainoff ⟨aimed.hashoff, aimed.nhash⟩ (.inl rfl) sized
      chain step fun _ _ _ _ => by simp
  · have step : mapStep t.kv (.store key data flag) =
        (.status 0, Function.update t.kv key.bytes (some data.bytes)) := by
      simp only [mapStep, if_neg legal, none_, Option.isSome_none, Bool.false_eq_true, if_false,
        if_neg isReplace]
    simp only [storeAbsent, if_neg isReplace, Prog.seq_assoc]
    apply wp_readptr aimed.chainoff began.sees
    intro pos
    apply wp_findfree began.holding enough
    · -- No free record fits: append one.
      intro u db₁ kept carried part loose alone
      have aimed₁ : Aimed db₁ (bucket key.bytes) :=
        ⟨⟨kept.hashoff.trans aimed.hashoff, kept.nhash.trans aimed.nhash⟩,
          kept.chainoff.trans aimed.chainoff⟩
      simp only [show ((-1 : Int) < 0) from by decide, if_true, Prog.seq_assoc]
      have sameHead : t.head (.chain (bucket key.bytes)) = u.head (.chain (bucket key.bytes)) :=
        congrArg Part.head part.symm
      have sameFiles : Subsingleton P → u.files = s.files := fun single =>
        (alone single).trans (began.alone single).2.2
      apply wp_storeAppend aimed₁.nhash aimed₁.chainoff (carried.holding began.holding)
        (congrArg Nat.cast sameHead) key.noNul data.noNul dataPos dataLt ready.plain
      · intro u₁ db₂ kept₁ carried₁ pushed loose₁ fits grown
        rw [part] at pushed
        simp only [Prog.ret_bind, Prog.pure_eq, end_]
        have aimed₂ := aimed₁.kept kept₁
        refine wp_finish_pushed ready began (carried.trans carried₁) loose₁
          aimed₂.chainoff ⟨aimed₂.hashoff, aimed₂.nhash⟩ sized chain none_ pushed step ?_ ?_
        · intro single _
          rw [← sameFiles single]
          exact fits single
        · intro single
          rw [grown single, alone single]
          omega
      · intro failure u₁ _ carried₁ stops single
        apply Failed.of_carried began (carried.trans carried₁) single
        obtain ⟨kv, parts, -⟩ := began.alone single
        rw [parts, kv] at chain
        rw [kv] at none_
        obtain ⟨left, grows⟩ := stops single
        rw [sameFiles single] at left grows
        rw [part, parts] at left
        exact Stopped.absent grows chain none_ left
    · -- A free record of the same lengths.
      intro u db₁ o e kept idxoff datoff carried part new nonnull near keyLength dataLength loose
        sizes
      have aimed₁ : Aimed db₁ (bucket key.bytes) :=
        ⟨⟨kept.hashoff.trans aimed.hashoff, kept.nhash.trans aimed.nhash⟩,
          kept.chainoff.trans aimed.chainoff⟩
      simp only [show ¬ ((0 : Int) < 0) from by decide, if_false, Prog.seq_assoc]
      have sameHead : t.head (.chain (bucket key.bytes)) = u.head (.chain (bucket key.bytes)) :=
        congrArg Part.head (part.symm : (t.part _).put o e = _)
      have owns : u.Owns p (.chain (bucket key.bytes)) := carried.owns began.holding.owns
      have sameLength : data.bytes.length = e.data.length := by omega
      apply wp_storeReuse aimed₁.chainoff owns rfl part new nonnull near
        idxoff datoff keyLength.symm sameLength key.noNul data.noNul ready.plain
      intro u₁ db₂ kept₁ carried₁ pushed loose₁ sizes₁
      simp only [Prog.ret_bind, Prog.pure_eq, end_]
      have aimed₂ := aimed₁.kept kept₁
      refine wp_finish_pushed ready began (carried.trans carried₁) ?_
        aimed₂.chainoff ⟨aimed₂.hashoff, aimed₂.nhash⟩ sized chain none_ pushed step ?_
        (sizes.trans sizes₁).grown
      · rw [loose₁, loose, began.loose, ready.loose]
      · -- The request does not append.
        rintro single ⟨old, isOld, -⟩
        rw [← (began.alone single).1, none_] at isOld
        cases isOld

/-- `db_store` of a key that is found. -/
theorem wp_storePresent {db' : DB} {front back : List Nat}
    (ready : Ready g p (.store key data flag) s db)
    (legal : ¬ (flag ≠ dbInsert ∧ flag ≠ dbReplace ∧ flag ≠ dbStoreFlag))
    (dataPos : 0 < data.bytes.length) (dataLt : data.bytes.length < datlenMax)
    (end_ : ∀ rc db, f (rc, db) =
      .op (.unlock .idx (byteAt db.chainoff)) fun _ => .ret (.status rc, db))
    (began : Began p (bucket key.bytes) .write s t) (aimed : Aimed db' (bucket key.bytes))
    (chain : Chain (t.part (.chain (bucket key.bytes))) (bucket key.bytes) t.kv)
    (value : t.kv key.bytes = some e.data) (loaded : Loaded db' db' o e.toSlot)
    (link : db'.ptroff = linkOff (.chain (bucket key.bytes)) front)
    (walk : (t.part (.chain (bucket key.bytes))).Walk (front ++ o :: back))
    (found : (t.part (.chain (bucket key.bytes))).entries o = some e)
    (same : e.key = key.bytes) :
    g.wp p (storePresent db' key.bytes data.bytes flag >>= f)
      (fun value t => Returned p (.store key data flag) s t value.1 value.2)
      (fun failure u => Subsingleton P → Failed p (.store key data flag) s failure u) t := by
  have sized : Request.Sized (.store key data flag) := sized_of_bounds dataPos dataLt
  by_cases isInsert : flag = dbInsert
  · have step : mapStep t.kv (.store key data flag) = (.status 1, t.kv) := by
      simp only [mapStep, if_neg legal, value, Option.isSome_some, if_true, if_pos isInsert]
    simp only [storePresent, if_pos isInsert, Prog.ret_bind, end_]
    exact wp_finish_idle ready began aimed.chainoff ⟨aimed.hashoff, aimed.nhash⟩ (.inl rfl) sized
      chain step fun _ _ _ _ => by simp
  · have step : mapStep t.kv (.store key data flag) =
        (.status 0, Function.update t.kv key.bytes (some data.bytes)) := by
      simp only [mapStep, if_neg legal, value, Option.isSome_some, if_true, if_neg isInsert]
    by_cases sameLength : data.bytes.length = e.data.length
    · -- Overwrite in place.
      have lengths : ¬ data.bytes.length + 1 ≠ db'.datlen := by
        rw [loaded.datlen]
        omega
      simp only [storePresent, if_neg isInsert, if_neg lengths, Prog.seq_assoc]
      apply wp_writedat_set loaded.datoff began.holding.owns found sameLength data.noNul
      intro u edit
      have carried := ((Rely.refl p t).carried began.sees).edit edit fun h' same =>
        (Place.chain.inj same).symm
      simp only [Prog.ret_bind, Prog.pure_eq, end_]
      refine wp_finish ready began carried (congrFun edit.loose p) aimed.chainoff
        ⟨aimed.hashoff, aimed.nhash⟩ (.inl rfl) sized ?_ ?_ ?_ ?_ edit.sameSize.grown
      · rw [step]
      · show ChainOk (u.part (.chain (bucket key.bytes))) (bucket key.bytes) _
        rw [step, edit.part, ← same]
        rw [← same] at chain found
        exact .inr (chain.overwrite found)
      · exact fun _ notZero => absurd rfl notZero
      · -- The request does not append.
        rintro single key' data' flag' isStore _ ⟨old, isOld, -, differ⟩
        obtain ⟨rfl, rfl, rfl⟩ := Request.store.inj isStore
        rw [← (began.alone single).1, value] at isOld
        rw [← Option.some.inj isOld] at differ
        exact absurd sameLength differ
    · -- Free the record and append another.
      have lengths : data.bytes.length + 1 ≠ db'.datlen := by
        rw [loaded.datlen]
        omega
      simp only [storePresent, if_neg isInsert, if_pos lengths, Prog.seq_assoc]
      apply wp_dodelete began.holding walk found loaded link
      intro u db₁ kept carried part loose sizes
      have unlinked := chain.unlink walk found
      rw [same, ← part] at unlinked
      have owns : u.Owns p (.chain (bucket key.bytes)) := carried.owns began.holding.owns
      have fitsIff : Subsingleton P →
          (AppendFits u.files key.bytes data.bytes ↔ AppendFits s.files key.bytes data.bytes) := by
        intro single
        have files := (began.alone single).2.2
        simp only [AppendFits, sizes single, files]
      have resizes : Subsingleton P → Resizes s.kv key data flag := by
        intro single
        refine ⟨e.data, ?_, isInsert, sameLength⟩
        rw [← (began.alone single).1]
        exact value
      apply wp_readptr (kept.chainoff.trans aimed.chainoff) owns.sees
      intro pos
      apply wp_storeAppend (kept.nhash.trans aimed.nhash) (kept.chainoff.trans aimed.chainoff)
        (carried.holding began.holding) rfl key.noNul data.noNul dataPos dataLt ready.plain
      · intro u₁ db₂ kept₁ carried₁ pushed loose₁ fits grown
        simp only [Prog.ret_bind, Prog.pure_eq, end_]
        have aimed₂ := aimed.kept (kept.trans (Kept.trans ⟨rfl, rfl, rfl⟩ kept₁))
        refine wp_finish_pushed ready began (carried.trans carried₁) loose₁
          aimed₂.chainoff ⟨aimed₂.hashoff, aimed₂.nhash⟩ sized unlinked
          (Function.update_self ..) pushed ?_ ?_ ?_
        · rw [step, Function.update_idem]
        · intro single _
          exact (fitsIff single).mp (fits single)
        · intro single
          rw [grown single, sizes single]
          omega
      · intro failure u₁ _ carried₁ stops single
        apply Failed.of_carried began (carried.trans carried₁) single
        obtain ⟨kv, parts, files⟩ := began.alone single
        rw [kv] at unlinked
        rw [parts, kv] at chain
        obtain ⟨left, grows⟩ := stops single
        have sameSizes : ∀ file, (s.files file).length = (u.files file).length := by
          intro file
          rw [sizes single, files]
        rw [← sameSizes] at grows
        exact Stopped.present (resizes single) grows chain unlinked (left.congr sameSizes)

/-- `db_store`. -/
theorem wp_store (enough : ptrMax < fuel) (ready : Ready g p (.store key data flag) s db) :
    Answers g p fuel (.store key data flag) s db := by
  simp only [Answers, dbRequest, dbStore]
  by_cases illegal : flag ≠ dbInsert ∧ flag ≠ dbReplace ∧ flag ≠ dbStoreFlag
  · -- A flag that is none of the three: nothing is done.
    have idle : ∀ kv, mapStep kv (.store key data flag) = (.status (-1), kv) := by
      intro kv
      simp only [mapStep, if_pos illegal]
    simp only [if_pos illegal, Prog.ret_bind, Prog.pure_eq]
    intro t rely _
    refine ⟨ready.standard, ?_, rely.loose.trans ready.loose, .inr ⟨rely.requests, idle⟩,
      .inl illegal, rely.returns, ?_, ?_, ?_, rely.sameSize.grown⟩
    · intro file b
      rw [rely.locks]
      exact ready.idle file b
    · exact fun single h _ => by rw [rely.alone single]
    · exact fun single _ h => by rw [rely.alone single]
    · exact fun _ _ _ _ _ isZero => absurd isZero (by simp)
  · simp only [if_neg illegal]
    by_cases bad : data.bytes.length + 1 < datlenMin ∨ data.bytes.length + 1 > datlenMax
    · simp only [errDumpIf_true bad, Prog.abort_bind]
      intro u rely _ single
      rw [rely.alone single]
      refine ⟨?_, fun _ _ => rfl, rfl, .length (not_or.mpr ⟨illegal, not_not.mpr bad⟩) rfl⟩
      intro c _ owns
      rw [State.Owns, ready.idle] at owns
      cases owns
    · have dataPos : 0 < data.bytes.length := by
        simp only [datlenMin] at bad
        omega
      have dataLt : data.bytes.length < datlenMax := by omega
      simp only [errDumpIf_false bad, Prog.ret_bind, Prog.seq_assoc]
      apply wp_findAndLock ready.standard ready.idle enough rfl
      · intro t db' began aimed chain none_
        simp only [storeFound, show ((-1 : Int) < 0) from by decide, if_true]
        exact wp_storeAbsent enough ready illegal dataPos dataLt (fun _ _ => rfl) began aimed chain
          none_
      · intro t db' o e front back began aimed chain value loaded link walk found same
        simp only [storeFound, show ¬ ((0 : Int) < 0) from by decide, if_false]
        exact wp_storePresent ready illegal dataPos dataLt (fun _ _ => rfl) began aimed chain value
          loaded link walk found same
      · intro t u began rely _ isFrozen
        exact Failed.of_frozen began rely isFrozen

end Store

/-- Every request ends as the map says, or fails. -/
theorem wp_request {fuel : Nat} (enough : ptrMax < fuel) (ready : Ready g p request s db) :
    Answers g p fuel request s db := by
  cases request with
  | fetch key => exact wp_fetch enough ready
  | store key data flag => exact wp_store enough ready
  | delete key => exact wp_delete enough ready

end Db

end CodeLearning
