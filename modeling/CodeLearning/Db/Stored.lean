import CodeLearning.Db.LockDiscipline
import CodeLearning.Db.Requests

/-!
# Databases at rest

What the two files hold while nobody works on them: `Stored files kv frozen` says that they
hold the map `kv`, apart from the chains in `frozen`, which cannot be read. A process that
has the database for itself leads from one such state to another (`request_ends`): a request
that returns answers as the map does, and one that fails leaves the map as it was or, when it
replaces data by data of another length, without the key.
-/

namespace CodeLearning

namespace Db

open FileProgram Decimal

/-- Files that nobody has locked. -/
def atRest {P : Type} (files : File → Bytes) : World P File Note where
  files := files
  locks _ _ _ := none
  log := []

/-- A list, as the records and the first pointers give it. -/
def partOf (recs : Nat → Option Entry) (head : Place → Nat) (c : Place) : Part :=
  ⟨head c, fun o => (recs o).filter fun e => e.owner = some c⟩

section Image

variable {plain whole : Prop} {files files' : File → Bytes} {kv kv' : KV}
  {frozen : Fin nhashDef → Prop} {recs : Nat → Option Entry} {head : Place → Nat}

/-- The records and first pointers that the files hold, and what they mean. -/
structure Image (plain whole : Prop) (files : File → Bytes) (kv : KV)
    (frozen : Fin nhashDef → Prop) (recs : Nat → Option Entry) (head : Place → Nat) : Prop where
  /-- The files. -/
  layout : Layout (files .idx) (files .dat) recs head fun _ : Unit => none
  /-- Chains that cannot be read. -/
  stuck : ∀ h, frozen h → Frozen (partOf recs head (.chain h))
  /-- Chains that can be read. -/
  chains : ∀ h, ¬ frozen h → Chain (partOf recs head (.chain h)) h kv
  /-- The free list. -/
  free : FreeList (partOf recs head .free)
  /-- Keys have no separator. -/
  plain : plain → ∀ o e, recs o = some e → sep ∉ e.key
  /-- Every record is on a list. -/
  whole : whole → ∀ o e, recs o = some e → e.owner ≠ none

/-- The files hold the map but for the frozen chains. -/
def Stored (plain whole : Prop) (files : File → Bytes) (kv : KV)
    (frozen : Fin nhashDef → Prop) : Prop :=
  ∃ recs head, Image plain whole files kv frozen recs head

/-- Less may be asked of the records. -/
theorem Stored.weaken {plain' whole' : Prop} (stored : Stored plain whole files kv frozen)
    (lessPlain : plain' → plain) (lessWhole : whole' → whole) :
    Stored plain' whole' files kv frozen := by
  obtain ⟨recs, head, image⟩ := stored
  refine ⟨recs, head, { image with plain := ?_, whole := ?_ }⟩
  · exact fun isPlain => image.plain (lessPlain isPlain)
  · exact fun isWhole => image.whole (lessWhole isWhole)

/-- Where no key has a separator, no chain is frozen. -/
theorem Stored.not_frozen (stored : Stored True whole files kv frozen) (h : Fin nhashDef) :
    ¬ frozen h := by
  obtain ⟨recs, head, image⟩ := stored
  intro isFrozen
  obtain ⟨e, found, mem⟩ := image.stuck h isFrozen
  simp only [partOf, Option.filter_eq_some_iff] at found
  exact image.plain trivial _ e found.1 mem

/-! ## From the files to a state and back -/

/-- Where a pool of processes starts. -/
def start {P : Type} (files : File → Bytes) (recs : Nat → Option Entry) (head : Place → Nat)
    (kv : KV) : State P where
  toWorld := atRest files
  recs := recs
  head := head
  loose _ := none
  kv := kv
  hist := []

/-- What is fixed for a pool of processes. -/
def startSetting {P : Type} (plain whole : Prop) (recs : Nat → Option Entry)
    (head : Place → Nat) (kv : KV) (script : P → List Request) : Setting P where
  plain := plain
  whole := whole
  base := kv
  free o := ∃ e, (partOf recs head .free).entries o = some e
  script := script

/-- A pool starts with the invariant. -/
theorem Image.inv {P : Type} [DecidableEq P] (image : Image plain whole files kv frozen recs head)
    (script : P → List Request) :
    Inv (startSetting plain whole recs head kv script) (start files recs head kv) := by
  refine ⟨image.layout.drop, ?_, ?_, rfl, fun _ => Iff.rfl, ?_, image.plain, image.whole⟩
  · intro c _
    cases c with
    | free => exact image.free
    | chain h =>
      by_cases isFrozen : frozen h
      · exact .inl (image.stuck h isFrozen)
      · exact .inr (image.chains h isFrozen)
  · intro p q file b _ _
    rfl
  · intro p
    exact ⟨List.nil_prefix, fun _ mem => absurd mem List.not_mem_nil, .inl rfl⟩

/-- The frozen chains are those that cannot be read. -/
theorem Image.frozen_iff (image : Image plain whole files kv frozen recs head)
    (h : Fin nhashDef) : frozen h ↔ Frozen (partOf recs head (.chain h)) := by
  constructor
  · exact image.stuck h
  · intro isFrozen
    by_contra readable
    exact (image.chains h readable).not_frozen isFrozen

section Back

variable {P : Type} [DecidableEq P] {g : Setting P} {p : P} {s t u : State P} {request : Request}

/-- A state in which nobody holds a lock. -/
theorem Inv.image (inv : Inv g t) (idle : ∀ p, Idle t p) :
    Image g.plain g.whole t.files t.kv (fun h => Frozen (t.part (.chain h))) t.recs t.head := by
  have nobody : ∀ c p, ¬ t.Owns p c := by
    intro c p owns
    rw [State.Owns, idle p] at owns
    cases owns
  refine ⟨inv.layout.drop, fun h isFrozen => isFrozen, ?_, ?_, inv.plain, inv.whole⟩
  · intro h readable
    rcases inv.lists (.chain h) (nobody _) with isFrozen | chain
    · exact absurd isFrozen readable
    · exact chain
  · exact inv.lists .free (nobody _)

/-- The records after an append that failed, where one that was not linked in counts for no
list. -/
structure Unlisted (g : Setting P) (u : State P) (h : Fin nhashDef) (A : Part)
    (files : File → Bytes) (key data : Bytes) (failure : Failure) (recs : Nat → Option Entry) :
    Prop where
  /-- The files. -/
  layout : Layout (u.files .idx) (u.files .dat) recs u.head fun _ : Unit => none
  /-- The chain is as it was before the append. -/
  chain : partOf recs u.head (.chain h) = A
  /-- The other lists. -/
  others : ∀ c, c ≠ .chain h → partOf recs u.head c = u.part c
  /-- Keys have no separator. -/
  plain : g.plain → ∀ o e, recs o = some e → sep ∉ e.key
  /-- Every record is on a list, unless `_db_writeptr` failed. -/
  whole : g.whole ∧ ¬ failure.Unlinked → ∀ o e, recs o = some e → e.owner ≠ none
  /-- A record whose length is in range was written. -/
  orphan : idxlenMin ≤ (idxText key (files .dat).length (data.length + 1)).length ∧
      (idxText key (files .dat).length (data.length + 1)).length ≤ idxlenMax →
    ∃ o e, recs o = some e ∧ e.owner = none ∧ e.key = key ∧ e.data = data

/-- What is left of a chain by an append that failed is the chain, once the record that was
not linked in counts for no list. -/
theorem exists_recs_of_left {A : Part} {h : Fin nhashDef} {key data : Bytes} {failure : Failure}
    (inv : Inv g u) (left : AppendLeft files key data failure A (u.part (.chain h))) :
    ∃ recs, Unlisted g u h A files key data failure recs := by
  cases left with
  | unwritten linked bad same =>
    exact ⟨u.recs, inv.layout.drop, same, fun _ _ => rfl, inv.plain, fun both => inv.whole both.1,
      fun fine => absurd fine bad⟩
  | @unlinked unlinked far o e new isKey isData put =>
    have found : (u.part (.chain h)).entries o = some e := by
      rw [put]
      simp [Part.put]
    have recU := (State.part_entries.mp found).1
    let v : State P :=
      { u with recs := Function.update u.recs o (some { e with owner := none }) }
    refine ⟨v.recs, (inv.layout.setOwner recU none).drop, ?_, ?_, ?_, ?_, ?_⟩
    · have gone : (none : Option Place) ≠ some (.chain h) := by simp
      have erased := part_update_erase u v rfl rfl gone
      rw [put] at erased
      have back : (A.put o e).erase o = A := by
        simp only [Part.put, Part.erase, Function.update_idem]
        rw [← new, Function.update_eq_self]
      rw [back] at erased
      exact erased
    · intro c differ
      have gone : (none : Option Place) ≠ some c := by simp
      exact part_update_other u v rfl rfl gone (entries_none_of_ne found differ)
    · exact fun isPlain => forall_update (inv.plain isPlain o e recU) (inv.plain isPlain)
    · exact fun both => absurd unlinked both.2
    · exact fun _ => ⟨o, { e with owner := none }, Function.update_self .., rfl, isKey, isData⟩

end Back

/-! ## One request of a process alone -/

/-- The files hold the map, and a record of the key and the data that is on no list. -/
def Orphaned (plain : Prop) (files : File → Bytes) (kv : KV) (frozen : Fin nhashDef → Prop)
    (key data : Bytes) : Prop :=
  ∃ recs head, Image plain False files kv frozen recs head ∧
    ∃ o e, recs o = some e ∧ e.owner = none ∧ e.key = key ∧ e.data = data

/-- Why a request fails without effect. -/
inductive Refused (plain : Prop) (files files' : File → Bytes) (kv : KV)
    (frozen : Fin nhashDef → Prop) : Request → Prop where
  /-- The chain cannot be read. -/
  | stuck {request : Request} (isFrozen : frozen (bucket request.key)) :
      Refused plain files files' kv frozen request
  /-- The data is too short or too long. -/
  | length {key data : CString} {flag : Int} (bad : ¬ Request.Sized (.store key data flag)) :
      Refused plain files files' kv frozen (.store key data flag)
  /-- The record of a new key does not fit, which shows once its data is appended. A record whose
  length is in range is written and then on no list. -/
  | full {key data : CString} {flag : Int} (absent : kv key.bytes = none)
      (full : ¬ AppendFits files key.bytes data.bytes)
      (grows : (files .dat).length < (files' .dat).length)
      (orphan : idxlenMin ≤
            (idxText key.bytes (files .dat).length (data.bytes.length + 1)).length ∧
          (idxText key.bytes (files .dat).length (data.bytes.length + 1)).length ≤ idxlenMax →
        Orphaned plain files' kv frozen key.bytes data.bytes) :
      Refused plain files files' kv frozen (.store key data flag)

/-- A request has failed. Every record is on a list afterwards if it was before, unless
`_db_writeptr` has failed. -/
inductive Broke (plain whole : Prop) (files : File → Bytes) (kv : KV)
    (frozen : Fin nhashDef → Prop) (failure : Failure) (files' : File → Bytes) :
    Request → Prop where
  /-- It had no effect. -/
  | refused {request : Request} (reason : Refused plain files files' kv frozen request)
      (stored : Stored plain (whole ∧ ¬ failure.Unlinked) files' kv frozen) :
      Broke plain whole files kv frozen failure files' request
  /-- The old data is lost. -/
  | lost {key data : CString} {flag : Int} (resizes : Resizes kv key data flag)
      (readable : ¬ frozen (bucket key.bytes))
      (full : ¬ AppendFits files key.bytes data.bytes)
      (grows : (files .dat).length < (files' .dat).length)
      (stored : Stored plain (whole ∧ ¬ failure.Unlinked) files'
        (Function.update kv key.bytes none) frozen) :
      Broke plain whole files kv frozen failure files' (.store key data flag)

/-- A request has returned. -/
structure Done (plain whole : Prop) (files : File → Bytes) (kv : KV)
    (frozen : Fin nhashDef → Prop) (files' : File → Bytes) (request : Request)
    (result : Result) : Prop where
  /-- The result is that of the map. -/
  answer : result = (mapStep kv request).1
  /-- The files hold the map after the request. -/
  stored : ∃ frozen', Stored plain whole files' (mapStep kv request).2 frozen'
  /-- Nothing changes unless the status is `0`. -/
  still : result ≠ .status 0 → Stored plain whole files' kv frozen
  /-- A record appended for data of another length fits. -/
  fits : ∀ key data flag, request = .store key data flag → result = .status 0 →
    Resizes kv key data flag → AppendFits files key.bytes data.bytes
  /-- The data file has grown by one record at most. -/
  grown : (files' .dat).length ≤ (files .dat).length + datlenMax

section Alone

variable {fuel : Nat} {db : DB} {request : Request}

/-- Requests of the only process there is. -/
theorem ownRequests_unit (hist : List (Unit × Request × Result)) :
    ownRequests hist () = hist.map Prod.snd := by
  simp [ownRequests]

/-- A process alone is ready for any request. -/
theorem ready_start (standard : Standard db) (plainKey : plain → sep ∉ request.key) :
    Ready (startSetting plain whole recs head kv fun _ : Unit => [request]) () request
      (start files recs head kv) db := by
  refine ⟨standard, fun _ _ => rfl, rfl, ?_, plainKey⟩
  intro sized result
  refine ⟨List.prefix_refl _, ?_, .inr ⟨[], (request, result), rfl, rfl⟩⟩
  intro entry mem
  rw [List.mem_singleton.mp mem]
  exact sized

/-- What a request that returned has done. -/
theorem Returned.done {t : State Unit} {result : Result} {db' : DB}
    (image : Image plain whole files kv frozen recs head)
    (inv : Inv (startSetting plain whole recs head kv fun _ : Unit => [request]) t)
    (returned : Returned () request (start files recs head kv) t result db') :
    Done plain whole files kv frozen t.files request result := by
  have single : Subsingleton Unit := inferInstance
  have idle : ∀ p, Idle t p := fun _ => returned.idle
  have history : Replays kv t.hist t.kv := inv.history
  have stored := inv.image idle
  -- The history is the request alone, or nothing when the request has no effect.
  have taken : result = (mapStep kv request).1 ∧ t.kv = (mapStep kv request).2 := by
    rcases returned.requests with logged | ⟨unlogged, idleStep⟩
    · rw [ownRequests_unit] at logged
      obtain ⟨entry, isEntry, value⟩ := List.map_eq_singleton_iff.mp logged
      rw [isEntry] at history
      obtain ⟨p, request', result'⟩ := entry
      cases value
      exact ⟨history.1, history.2⟩
    · rw [ownRequests_unit] at unlogged
      rw [List.map_eq_nil_iff.mp unlogged] at history
      rw [idleStep kv]
      exact ⟨rfl, history⟩
  obtain ⟨answer, after_⟩ := taken
  rw [after_] at stored
  refine ⟨answer, ⟨_, t.recs, t.head, stored⟩, ?_, returned.fits single, returned.grown single⟩
  intro notZero
  have sameFrozen : (fun h => Frozen (t.part (.chain h))) = frozen := by
    funext h
    rw [returned.still single notZero h]
    exact propext (image.frozen_iff h).symm
  rw [mapStep_still (answer ▸ notZero), sameFrozen] at stored
  exact ⟨t.recs, t.head, stored⟩

/-- What a request that failed has done. -/
theorem Failed.broke {u : State Unit} {failure : Failure}
    (image : Image plain whole files kv frozen recs head)
    (inv : Inv (startSetting plain whole recs head kv fun _ : Unit => [request]) u)
    (failed : Failed () request (start files recs head kv) failure u) :
    Broke plain whole files kv frozen failure u.files request := by
  have nobody : ∀ c, c ≠ .chain (bucket request.key) → ∀ p, ¬ u.Owns p c := fun c differ _ =>
    failed.locks c differ
  have free : FreeList (u.part .free) := inv.lists .free (nobody .free (by simp))
  -- The files hold any map that agrees with the old one on the other chains.
  have store : ∀ recs' whole' kv',
      Layout (u.files .idx) (u.files .dat) recs' u.head (fun _ : Unit => none) →
      (∀ c, c ≠ .chain (bucket request.key) → partOf recs' u.head c = u.part c) →
      (plain → ∀ o e, recs' o = some e → sep ∉ e.key) →
      (whole' → ∀ o e, recs' o = some e → e.owner ≠ none) →
      (frozen (bucket request.key) → Frozen (partOf recs' u.head (.chain (bucket request.key)))) →
      (¬ frozen (bucket request.key) →
        Chain (partOf recs' u.head (.chain (bucket request.key))) (bucket request.key) kv') →
      (∀ k, bucket k ≠ bucket request.key → kv' k = kv k) →
        Image plain whole' u.files kv' frozen recs' u.head := by
    intro recs' whole' kv' layout others isPlain isWhole stuck readable agree
    have rest : ∀ h, h ≠ bucket request.key →
        partOf recs' u.head (.chain h) = partOf recs head (.chain h) := by
      intro h differ
      have differ' : Place.chain h ≠ .chain (bucket request.key) := fun same =>
        differ (Place.chain.inj same)
      exact (others _ differ').trans (failed.others h differ)
    refine ⟨layout, ?_, ?_, ?_, isPlain, isWhole⟩
    · intro h isFrozen
      by_cases same : h = bucket request.key
      · subst same
        exact stuck isFrozen
      · rw [rest h same]
        exact image.stuck h isFrozen
    · intro h notFrozen
      by_cases same : h = bucket request.key
      · subst same
        exact readable notFrozen
      · rw [rest h same]
        exact (image.chains h notFrozen).congr fun k inChain => agree k (inChain ▸ same)
    · rw [others .free (by simp)]
      exact free
  -- A chain that is as it was holds what it held.
  have same : partOf u.recs u.head (.chain (bucket request.key)) =
        partOf recs head (.chain (bucket request.key)) →
      Stored plain (whole ∧ ¬ failure.Unlinked) u.files kv frozen := fun same =>
    ⟨u.recs, u.head, store u.recs _ kv inv.layout.drop (fun _ _ => rfl) inv.plain
      (fun both => inv.whole both.1) (fun isFrozen => same ▸ image.stuck _ isFrozen)
      (fun readable => same ▸ image.chains _ readable) (fun _ _ => rfl)⟩
  cases failed.reason with
  | frozen isFrozen unchanged =>
    exact .refused (.stuck ((image.frozen_iff _).mpr isFrozen)) (same unchanged)
  | length bad unchanged => exact .refused (.length bad) (same unchanged)
  | absent grows chain none_ left =>
    obtain ⟨recs', unlisted⟩ := exists_recs_of_left inv left
    have held : ∀ whole', (whole' → ∀ o e, recs' o = some e → e.owner ≠ none) →
        Image plain whole' u.files kv frozen recs' u.head := fun whole' isWhole =>
      store recs' whole' kv unlisted.layout unlisted.others unlisted.plain isWhole
        (fun isFrozen => unlisted.chain ▸ image.stuck _ isFrozen)
        (fun _ => unlisted.chain ▸ chain) (fun _ _ => rfl)
    refine .refused (.full none_ left.not_fits grows fun fine => ?_)
      ⟨recs', u.head, held _ unlisted.whole⟩
    exact ⟨recs', u.head, held False False.elim, unlisted.orphan fine⟩
  | @present key data flag A resizes grows before chain left =>
    have readable : ¬ frozen (bucket key.bytes) := fun isFrozen =>
      before.not_frozen (image.stuck _ isFrozen)
    obtain ⟨recs', unlisted⟩ := exists_recs_of_left inv left
    refine .lost resizes readable left.not_fits grows ⟨recs', u.head, store recs' _ _
      unlisted.layout unlisted.others unlisted.plain unlisted.whole
      (fun isFrozen => absurd isFrozen readable) (fun _ => unlisted.chain ▸ chain) ?_⟩
    intro k other
    apply Function.update_of_ne
    rintro rfl
    exact other rfl

/-- A request of a process alone returns as the map says, or fails. -/
theorem request_ends (stored : Stored plain whole files kv frozen) (standard : Standard db)
    (enough : ptrMax < fuel) (plainKey : plain → sep ∉ request.key) :
    (∃ result db' w, run () (dbRequest fuel db request) (atRest files) =
        (.returned (result, db'), w) ∧ ownReturns w.log () = [] ∧
        Done plain whole files kv frozen w.files request result) ∨
      ∃ failure w, run () (dbRequest fuel db request) (atRest files) = (.aborted failure, w) ∧
        Broke plain whole files kv frozen failure w.files request := by
  obtain ⟨recs, head, image⟩ := stored
  have ready : Ready (startSetting plain whole recs head kv fun _ : Unit => [request]) () request
      (start files recs head kv) db := ready_start standard plainKey
  have ends := Logic.run_sound (wp_request enough ready) (image.inv fun _ => [request])
  have world : (startSetting plain whole recs head kv fun _ : Unit => [request]).logic.world
      (start files recs head kv) = atRest files := rfl
  rw [world] at ends
  rcases outcome : run () (dbRequest fuel db request) (atRest files) with ⟨value | failure | _, w⟩
  · rw [outcome] at ends
    obtain ⟨t, rfl, inv, returned⟩ := ends
    exact .inl ⟨value.1, value.2, _, rfl, returned.returns, returned.done image inv⟩
  · rw [outcome] at ends
    obtain ⟨u, rfl, inv, failed⟩ := ends
    exact .inr ⟨failure, _, rfl, (failed inferInstance).broke image inv⟩
  · rw [outcome] at ends
    exact ends.elim

/-! ## What a process reads that opens the database -/

/-- The handle that `db_open` returns has the default table. -/
theorem opened_standard : Standard opened := ⟨rfl, rfl⟩

/-- The files after `db_open` has created them. -/
def initialFiles : File → Bytes := (run () (dbOpen true) (atRest fun _ => [])).2.files

/-- The index file is the empty table, and the data file is empty. -/
theorem initialFiles_eq : initialFiles .idx = emptyIndex ∧ initialFiles .dat = [] := by
  constructor
  · exact ByteFile.writeAt_empty emptyIndex
  · rfl

/-- The empty table and its newline. -/
theorem length_emptyIndex : emptyIndex.length = tableEnd := by
  have cell : (padLeft ptrSz (decimal 0)).length = ptrSz := length_ptrText (by decide)
  simp [emptyIndex, List.length_flatten, cell, tableEnd]

/-- `db_open` makes the empty map. -/
theorem initialFiles_stored : Stored True True initialFiles (fun _ => none) fun _ => False := by
  obtain ⟨index, data⟩ := initialFiles_eq
  have empty : ∀ c, (partOf (fun _ => none) (fun _ => 0) c).Walk [] := fun c =>
    ⟨rfl, fun o => by simp [partOf]⟩
  have noEntry : ∀ c o e, (partOf (fun _ => none) (fun _ => 0) c).entries o ≠ some e := by
    intro c o e
    simp [partOf]
  refine ⟨fun _ => none, fun _ => 0, ?_, fun _ isFrozen => isFrozen.elim, ?_, ?_, ?_, ?_⟩
  · rw [index, data]
    have cells : ∀ c : Place, ByteFile.Holds emptyIndex c.off (ptrText 0) := by
      intro c
      have width : (padLeft ptrSz (decimal 0)).length = ptrSz := length_ptrText (by decide)
      cases c with
      | free => exact ByteFile.holds_replicate (i := 0) (by decide)
      | chain h =>
        have off : (Place.chain h).off = (h + 1) * (padLeft ptrSz (decimal 0)).length := by
          rw [width, Place.off, hashOff, Nat.succ_mul]
        rw [off]
        exact ByteFile.holds_replicate (by omega)
    exact
      { table := by rw [length_emptyIndex]
        head_le := fun _ => Nat.zero_le _
        cells := cells
        valid := fun _ _ found => by cases found
        past := fun _ _ found => by cases found
        index := fun _ _ found => by cases found
        apart := fun _ _ _ _ found => by cases found
        cover := fun i low high => by
          rw [length_emptyIndex] at high
          omega
        data := by
          rintro (o | p) off d found
          · cases found
          · cases found
        dataApart := by
          rintro (o | p) y off d off' d' _ found _
          · cases found
          · cases found }
  · intro h _
    exact
      { walk := ⟨[], empty _⟩
        hash := fun o e found => absurd found (noEntry _ o e)
        plain := fun o e found => absurd found (noEntry _ o e)
        distinct := fun o e _ _ found => absurd found (noEntry _ o e)
        present := fun o e found => absurd found (noEntry _ o e)
        absent := fun _ _ _ => rfl }
  · exact ⟨⟨[], empty _⟩, fun o e found => absurd found (noEntry _ o e)⟩
  · intro _ o e found
    cases found
  · intro _ o e found
    cases found

end Alone

end Image

end Db

end CodeLearning
