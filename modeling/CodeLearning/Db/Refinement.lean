import CodeLearning.Db.Sessions

/-!
# The database of a process alone

Two results about a process that has the database for itself. Its sessions have the results
of a finite map, as long as keys and data are well formed and the records it appends fit. And
a `db_store` that does not return `0` leaves every key as it was, except when it replaces data
by data of another length for which the new record does not fit: the old record is freed
before the lengths are checked.
-/

namespace CodeLearning

namespace Db

open FileProgram Decimal

variable {fuel : Nat} {db db' : DB} {files files' : File → Bytes} {plain whole : Prop} {kv : KV}
  {frozen : Fin nhashDef → Prop} {request : Request} {requests : List Request}

/-! ## Sessions have the results of a map -/

/-- A request whose key has no separator and, to store, is not empty, with data that is
neither empty nor too long. -/
def WellFormed : Request → Prop
  | .fetch key => sep ∉ key.bytes
  | .delete key => sep ∉ key.bytes
  | .store key data _ =>
    sep ∉ key.bytes ∧ key.bytes ≠ [] ∧ 1 ≤ data.bytes.length ∧ data.bytes.length < datlenMax

/-- Whether a request is well formed can be decided. -/
instance : DecidablePred WellFormed
  | .fetch key => inferInstanceAs (Decidable (sep ∉ key.bytes))
  | .delete key => inferInstanceAs (Decidable (sep ∉ key.bytes))
  | .store _ _ _ => inferInstanceAs (Decidable (_ ∧ _ ∧ _ ∧ _))

/-- If the request appends to the data file, the index record it makes is not too long and
its offset is within reach of a pointer. -/
def Fits (fuel : Nat) (db : DB) (files : File → Bytes) (request : Request) : Prop :=
  ∀ key data flag, request = .store key data flag →
    (files .dat).length <
        ((run () (dbRequest fuel db request) (atRest files)).2.files .dat).length →
      (idxText key.bytes (files .dat).length (data.bytes.length + 1)).length ≤ idxlenMax ∧
        (files .idx).length ≤ ptrMax

/-- Each request of a session fits the files that the requests before it have made. -/
def AllFit (fuel : Nat) : DB → (File → Bytes) → List Request → Prop
  | _, _, [] => True
  | db, files, request :: requests =>
    Fits fuel db files request ∧
      ∀ result db' w, run () (dbRequest fuel db request) (atRest files) =
        (.returned (result, db'), w) → AllFit fuel db' w.files requests

/-- The key of a well-formed request has no separator. -/
theorem WellFormed.noSep (wellFormed : WellFormed request) : sep ∉ request.key := by
  cases request with
  | fetch key => exact wellFormed
  | delete key => exact wellFormed
  | store key data flag => exact wellFormed.1

/-- An index record with a key is not too short. -/
theorem idxText_ge {key : Bytes} (nonempty : key ≠ []) (datoff datlen : Nat) :
    idxlenMin ≤ (idxText key datoff datlen).length := by
  have keyPos := List.length_pos_iff.mpr nonempty
  have offPos := List.length_pos_iff.mpr (decimal_ne_nil datoff)
  have lenPos := List.length_pos_iff.mpr (decimal_ne_nil datlen)
  simp only [idxText, lld_ofNat, List.length_append, List.length_cons, List.length_nil, idxlenMin]
  omega

/-- A well-formed request that fits does not fail. -/
theorem not_broke (stored : Stored True whole files kv frozen) (wellFormed : WellFormed request)
    (fits : Fits fuel db files request) {failure : Failure} {w : World Unit File Note}
    (ends : run () (dbRequest fuel db request) (atRest files) = (.aborted failure, w)) :
    ¬ Broke True whole files kv frozen failure w.files request := by
  have room : ∀ key data flag, request = .store key data flag →
      (files .dat).length < (w.files .dat).length → AppendFits files key.bytes data.bytes := by
    rintro key data flag rfl grows
    have bounds := fits key data flag rfl (by rw [ends]; exact grows)
    exact ⟨idxText_ge wellFormed.2.1 _ _, bounds.1, bounds.2⟩
  intro broke
  cases broke with
  | refused reason _ =>
    cases reason with
    | stuck isFrozen => exact stored.not_frozen _ isFrozen
    | length bad => exact bad (sized_of_bounds wellFormed.2.2.1 wellFormed.2.2.2)
    | full _ full grows => exact full (room _ _ _ rfl grows)
  | lost _ _ full grows _ => exact full (room _ _ _ rfl grows)

/-- Requests that store nothing fit. -/
theorem allFit_of_reads (reads : ∀ request ∈ requests, ∀ key data flag,
    request ≠ .store key data flag) : AllFit fuel db files requests := by
  induction requests generalizing db files with
  | nil => trivial
  | cons request requests rest =>
    refine ⟨?_, ?_⟩
    · intro key data flag isStore
      exact absurd isStore (reads request List.mem_cons_self key data flag)
    · intro _ _ _ _
      exact rest fun other mem => reads other (List.mem_cons_of_mem _ mem)

/-- One store fits the files that `db_open` creates, if its record is not too long. -/
theorem allFit_created {key data : CString} {flag : Int}
    (short : (idxText key.bytes 0 (data.bytes.length + 1)).length ≤ idxlenMax)
    (reads : ∀ request ∈ requests, ∀ key data flag, request ≠ .store key data flag) :
    AllFit fuel opened initialFiles (.store key data flag :: requests) := by
  obtain ⟨index, data⟩ := initialFiles_eq
  refine ⟨?_, fun _ _ _ _ => allFit_of_reads reads⟩
  intro key' data' flag' isStore _
  obtain ⟨rfl, rfl, rfl⟩ := Request.store.inj isStore
  rw [index, data, length_emptyIndex]
  exact ⟨short, by decide⟩

/-- A session of well-formed requests that fit returns. -/
theorem session_returns (stored : Stored True whole files kv frozen) (standard : Standard db)
    (enough : ptrMax < fuel) (wellFormed : ∀ request ∈ requests, WellFormed request)
    (fits : AllFit fuel db files requests) :
    (run () (session fuel db (requests.map .request)) (atRest files)).1 = .returned () := by
  induction requests generalizing db files kv frozen with
  | nil => rfl
  | cons request requests rest =>
    have here := wellFormed request List.mem_cons_self
    rcases request_ends stored standard enough fun _ => here.noSep with
      ⟨result, db', w, ends, quiet, done⟩ | ⟨failure, w, ends, broke⟩
    · have standard' := request_returned standard ends
      obtain ⟨frozen', stored'⟩ := done.stored
      have first : run () (dbCall fuel db (.request request)) (atRest files) =
          (.returned (result, db'), w) := ends
      obtain ⟨outcome, -⟩ := session_call (requests.map .request) standard first quiet
      rw [List.map_cons, outcome]
      apply rest stored' standard' _ (fits.2 result db' w ends)
      exact fun other mem => wellFormed other (List.mem_cons_of_mem _ mem)
    · exact absurd broke (not_broke stored here fits.1 ends)

/-- Every session of well-formed requests that fit, from the files that `db_open` creates,
returns, and its results are those of a map that is empty at first. -/
theorem session_refines_map (enough : ptrMax < fuel)
    (wellFormed : ∀ request ∈ requests, WellFormed request)
    (fits : AllFit fuel opened initialFiles requests) :
    (run () (session fuel opened (requests.map .request)) (atRest initialFiles)).1 =
        .returned () ∧
      ownReturns
          (run () (session fuel opened (requests.map .request)) (atRest initialFiles)).2.log () =
        completed (mapRun (fun _ => none) requests) := by
  have stored := initialFiles_stored
  have returns := session_returns stored opened_standard enough wellFormed fits
  rcases session_answers stored opened_standard enough
    fun _ request mem => (wellFormed request mem).noSep with ⟨failure, aborted⟩ | ⟨_, answers, _⟩
  · rw [returns] at aborted
    cases aborted
  · exact ⟨returns, answers⟩

/-- A key of one letter. -/
def keyA : CString := ⟨[97], by decide⟩

/-- Data of one letter. -/
def dataB : CString := ⟨[98], by decide⟩

/-- A key is stored, fetched, deleted and fetched again. -/
theorem session_refines_map_one_key :
    ownReturns (run () (session (ptrMax + 1) opened
        ([Request.store keyA dataB dbInsert, .fetch keyA, .delete keyA, .fetch keyA].map .request))
        (atRest initialFiles)).2.log () =
      [(.request (.store keyA dataB dbInsert), .status 0),
        (.request (.fetch keyA), .data (some [98])), (.request (.delete keyA), .status 0),
        (.request (.fetch keyA), .data none)] := by
  have wellFormed : ∀ request ∈
      [Request.store keyA dataB dbInsert, .fetch keyA, .delete keyA, .fetch keyA],
      WellFormed request := by decide
  have fits : AllFit (ptrMax + 1) opened initialFiles
      [.store keyA dataB dbInsert, .fetch keyA, .delete keyA, .fetch keyA] :=
    allFit_created (by decide) (by simp)
  rw [(session_refines_map (Nat.lt_succ_self ptrMax) wellFormed fits).2]
  decide

/-! ## A store that fails -/

section Store

variable {key data : CString} {flag : Int}

end Store

end Db

end CodeLearning
