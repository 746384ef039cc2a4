import CodeLearning.Db.Chain
import CodeLearning.Lib.RelyGuarantee

/-!
# Ownership of the records

A `State` is the world with what the proof knows of it: the records in the index file and the
list each belongs to, data not yet entered in a record, the map, and the history of requests
in the order in which their effect came about. A process owns the lists it has locked for
writing. The invariant `Inv` says of every list that nobody owns what it means; a process
relies on the lists it has locked (`Rely`).
-/

namespace CodeLearning

namespace Db

open FileProgram

variable {P : Type}

/-- The world and what is known of it. -/
structure State (P : Type) extends World P File Note where
  /-- Index records by offset. -/
  recs : Nat → Option Entry
  /-- First record of each list. -/
  head : Place → Nat
  /-- Data a process has appended and not yet entered in a record. -/
  loose : P → Option (Nat × Bytes)
  /-- The map. -/
  kv : KV
  /-- Requests in the order of their effects. -/
  hist : List (P × Request × Result)

namespace State

/-- What the lock of a list protects. -/
def part (s : State P) (c : Place) : Part :=
  ⟨s.head c, fun o => (s.recs o).filter fun e => e.owner = some c⟩

/-- The process has locked the list. -/
def Sees (s : State P) (p : P) (c : Place) : Prop := s.locks p .idx c.off ≠ none

/-- The process has locked the list for writing. -/
def Owns (s : State P) (p : P) (c : Place) : Prop := s.locks p .idx c.off = some .write

/-- The process may append to the file. -/
def Appends (s : State P) (p : P) : File → Prop
  | .idx => s.locks p .idx tableEnd = some .write
  | .dat => s.locks p .dat 0 = some .write

/-- What a list means while nobody owns it. -/
def PartOk (s : State P) : Place → Prop
  | .free => FreeList (s.part .free)
  | .chain h => ChainOk (s.part (.chain h)) h s.kv

/-- The record is on the free list. -/
def OnFree (s : State P) (o : Nat) : Prop := ∃ e, (s.part .free).entries o = some e

end State

section Own

variable [DecidableEq P]

/-- Requests of one process in a history. -/
def ownRequests (hist : List (P × Request × Result)) (p : P) : List (Request × Result) :=
  hist.filterMap fun entry => if entry.1 = p then some entry.2 else none

/-- Calls of one process that have returned. -/
def ownReturns (log : List (P × Note)) (p : P) : List (Call × Result) :=
  log.filterMap fun entry =>
    match entry with
    | (q, .returned call result) => if q = p then some (call, result) else none
    | _ => none

/-- Requests as calls that have returned. -/
def completed (requests : List (Request × Result)) : List (Call × Result) :=
  requests.map fun entry => (.request entry.1, entry.2)

/-- A process has made the first requests of its script, and all but perhaps the last of them
have returned. -/
structure Follows (script : List Request) (requests : List (Request × Result))
    (returns : List (Call × Result)) : Prop where
  /-- The requests are the first of the script. -/
  made : requests.map Prod.fst <+: script
  /-- Their data has the right length. -/
  sized : ∀ entry ∈ requests, entry.1.Sized
  /-- Which of them have returned. -/
  returned : returns = completed requests ∨
    ∃ front last, requests = front ++ [last] ∧ returns = completed front

/-- What a process relies on. -/
structure Rely (p : P) (s t : State P) : Prop where
  /-- Its locks. -/
  locks : t.locks p = s.locks p
  /-- The lists it has locked. -/
  part : ∀ c, s.Sees p c → t.part c = s.part c
  /-- The data of keys of the chains it has locked. -/
  kv : ∀ k, s.Sees p (.chain (bucket k)) → t.kv k = s.kv k
  /-- Its data outside of records. -/
  loose : t.loose p = s.loose p
  /-- Its requests. -/
  requests : ownRequests t.hist p = ownRequests s.hist p
  /-- Its calls that have returned. -/
  returns : ownReturns t.log p = ownReturns s.log p
  /-- The size of a file it may append to. -/
  size : ∀ file, s.Appends p file → (t.files file).length = (s.files file).length
  /-- Everything, when it is alone. -/
  alone : Subsingleton P → t = s

/-- The files keep their sizes, as far as a process that is alone can tell. -/
def SameSize (s t : State P) : Prop :=
  Subsingleton P → ∀ file, (t.files file).length = (s.files file).length

omit [DecidableEq P] in
/-- Sizes that stay twice stay. -/
theorem SameSize.trans {s t u : State P} (first : SameSize s t) (second : SameSize t u) :
    SameSize s u := fun single file => (second single file).trans (first single file)

omit [DecidableEq P] in
/-- The sizes of a state. -/
theorem SameSize.refl (s : State P) : SameSize s s := fun _ _ => rfl

omit [DecidableEq P] in
/-- A data file that keeps its size has grown by one record at most. -/
theorem SameSize.grown {s t : State P} (same : SameSize s t) (single : Subsingleton P) :
    (t.files .dat).length ≤ (s.files .dat).length + datlenMax := by
  rw [same single]
  exact Nat.le_add_right _ _

/-- The others keep the sizes that a lock protects. -/
theorem Rely.sameSize {p : P} {s t : State P} (rely : Rely p s t) : SameSize s t := by
  intro single file
  rw [rely.alone single]

/-- The others may do nothing. -/
theorem Rely.refl (p : P) (s : State P) : Rely p s s :=
  ⟨rfl, fun _ _ => rfl, fun _ _ => rfl, rfl, rfl, rfl, fun _ _ => rfl, fun _ => rfl⟩

section Facts

variable {p : P} {s t u : State P} {c : Place} {o : Nat} {e : Entry}

/-- The others keep what a process may read. -/
theorem Rely.sees (rely : Rely p s t) (sees : s.Sees p c) : t.Sees p c := by
  rw [State.Sees, rely.locks]
  exact sees

/-- The others keep what a process may write. -/
theorem Rely.owns (rely : Rely p s t) (owns : s.Owns p c) : t.Owns p c := by
  rw [State.Owns, rely.locks]
  exact owns

/-- The others keep the right to append. -/
theorem Rely.appends {file : File} (rely : Rely p s t) (appends : s.Appends p file) :
    t.Appends p file := by
  cases file with
  | idx =>
    rw [State.Appends, rely.locks]
    exact appends
  | dat =>
    rw [State.Appends, rely.locks]
    exact appends

/-- What the others do twice they may do. -/
theorem Rely.trans (first : Rely p s t) (second : Rely p t u) : Rely p s u where
  locks := second.locks.trans first.locks
  part c sees := (second.part c (first.sees sees)).trans (first.part c sees)
  kv k sees := (second.kv k (first.sees sees)).trans (first.kv k sees)
  loose := second.loose.trans first.loose
  requests := second.requests.trans first.requests
  returns := second.returns.trans first.returns
  size file appends := (second.size file (first.appends appends)).trans (first.size file appends)
  alone single := (second.alone single).trans (first.alone single)

omit [DecidableEq P] in
/-- Who may write may read. -/
theorem State.Owns.sees (owns : s.Owns p c) : s.Sees p c := by
  rw [State.Sees, show s.locks p .idx c.off = some .write from owns]
  simp

omit [DecidableEq P] in
/-- A record of a list is a record. -/
theorem State.part_entries :
    (s.part c).entries o = some e ↔ s.recs o = some e ∧ e.owner = some c := by
  simp [State.part, Option.filter_eq_some_iff]

omit [DecidableEq P] in
/-- What a list means depends on its part and on the data of its keys. -/
theorem State.partOk_congr {c : Place} (same : t.part c = s.part c)
    (agree : ∀ k, c = .chain (bucket k) → t.kv k = s.kv k) : t.PartOk c ↔ s.PartOk c := by
  cases c with
  | free =>
    rw [State.PartOk, State.PartOk, same]
  | chain h =>
    rw [State.PartOk, State.PartOk, same]
    unfold ChainOk
    have agreeH : ∀ k, bucket k = h → t.kv k = s.kv k := fun k inChain =>
      agree k (congrArg Place.chain inChain.symm)
    constructor
    · rintro (frozen | chain)
      · exact .inl frozen
      · exact .inr (chain.congr fun k inChain => (agreeH k inChain).symm)
    · rintro (frozen | chain)
      · exact .inl frozen
      · exact .inr (chain.congr agreeH)

/-- A locked list means what it meant. -/
theorem Rely.partOk (rely : Rely p s t) (sees : s.Sees p c) : t.PartOk c ↔ s.PartOk c := by
  apply State.partOk_congr (rely.part c sees)
  intro k inChain
  exact rely.kv k (inChain ▸ sees)

/-- A record of a locked list stays. -/
theorem Rely.entry (rely : Rely p s t) (sees : s.Sees p c)
    (found : (s.part c).entries o = some e) : t.recs o = some e := by
  rw [← rely.part c sees] at found
  exact (State.part_entries.mp found).1

end Facts

/-! ## The invariant -/

/-- What a proof fixes once: whether keys have no separator, whether no call has failed, the
map at the start, the free list at the start, and the requests of each process. -/
structure Setting (P : Type) where
  /-- All keys are without separator. -/
  plain : Prop
  /-- No call has failed. -/
  whole : Prop
  /-- The map at the start. -/
  base : KV
  /-- The free list at the start. -/
  free : Nat → Prop
  /-- The requests of each process. -/
  script : P → List Request

/-- What holds between any two steps. -/
structure Inv (g : Setting P) (s : State P) : Prop where
  /-- The files. -/
  layout : Layout (s.files .idx) (s.files .dat) s.recs s.head s.loose
  /-- The lists that nobody owns. -/
  lists : ∀ c, (∀ p, ¬ s.Owns p c) → s.PartOk c
  /-- A lock for writing excludes others. -/
  exclusive : ∀ p q file b, p ≠ q → s.locks p file b = some .write → s.locks q file b = none
  /-- The requests explain the map. -/
  history : Replays g.base s.hist s.kv
  /-- The log explains the free list. -/
  takes : TakesFrom g.free s.log s.OnFree
  /-- Processes follow their scripts. -/
  scripts : ∀ p, Follows (g.script p) (ownRequests s.hist p) (ownReturns s.log p)
  /-- Keys have no separator. -/
  plain : g.plain → ∀ o e, s.recs o = some e → sep ∉ e.key
  /-- Every record is on a list. -/
  whole : g.whole → ∀ o e, s.recs o = some e → e.owner ≠ none

/-- Rely and guarantee for the library. -/
def Setting.logic (g : Setting P) : Logic P File Note (State P) where
  world := State.toWorld
  Inv := Inv g
  Rely := Rely
  rely_refl := Rely.refl
  rely_trans _ _ _ _ := Rely.trans

/-- Weakest precondition of a program of the library. -/
abbrev Setting.wp {α : Type} (g : Setting P) (p : P) (prog : DbProg α) (post : α → State P → Prop)
    (fail : Failure → State P → Prop) (s : State P) : Prop := g.logic.wp p prog post fail s

/-! ## Steps of the owner -/

section Steps

variable {g : Setting P} {p q : P} {t : State P} {c : Place}

/-- What a process owns no other has locked. -/
theorem Inv.not_sees (inv : Inv g t) (owns : t.Owns p c) (other : q ≠ p) : ¬ t.Sees q c :=
  fun sees => sees (inv.exclusive p q .idx c.off other.symm owns)

/-- A step that touches only what its process owns keeps what the others rely on. -/
theorem Inv.guarantee (inv : Inv g t) (u : State P) (locks : ∀ q, q ≠ p → u.locks q = t.locks q)
    (parts : ∀ c, u.part c = t.part c ∨ t.Owns p c)
    (kv : ∀ k, u.kv k = t.kv k ∨ t.Owns p (.chain (bucket k)))
    (loose : ∀ q, q ≠ p → u.loose q = t.loose q)
    (requests : ∀ q, q ≠ p → ownRequests u.hist q = ownRequests t.hist q)
    (returns : ∀ q, q ≠ p → ownReturns u.log q = ownReturns t.log q)
    (size : ∀ file, (u.files file).length = (t.files file).length ∨ t.Appends p file) :
    g.logic.Guarantee p t u := by
  intro q other
  refine ⟨locks q other, ?_, ?_, loose q other, requests q other, returns q other, ?_, ?_⟩
  · intro c sees
    rcases parts c with same | owns
    · exact same
    · exact absurd sees (inv.not_sees owns other)
  · intro k sees
    rcases kv k with same | owns
    · exact same
    · exact absurd sees (inv.not_sees owns other)
  · intro file appends
    rcases size file with same | mine
    · exact same
    · cases file with
      | idx =>
        have none_ := inv.exclusive p q .idx tableEnd other.symm mine
        rw [State.Appends, none_] at appends
        cases appends
      | dat =>
        have none_ := inv.exclusive p q .dat 0 other.symm mine
        rw [State.Appends, none_] at appends
        cases appends
  · intro single
    exact absurd (Subsingleton.elim q p) other

/-- A step that changes no lock, no map and no history keeps the invariant when it touches
only lists that its process owns. -/
theorem Inv.edit (inv : Inv g t) (u : State P) (p : P) (locks : u.locks = t.locks)
    (kv : u.kv = t.kv) (hist : u.hist = t.hist)
    (layout : Layout (u.files .idx) (u.files .dat) u.recs u.head u.loose)
    (parts : ∀ c, u.part c = t.part c ∨ t.Owns p c)
    (takes : TakesFrom g.free u.log u.OnFree)
    (scripts : ∀ q, Follows (g.script q) (ownRequests u.hist q) (ownReturns u.log q))
    (plain : g.plain → ∀ o e, u.recs o = some e → sep ∉ e.key)
    (whole : g.whole → ∀ o e, u.recs o = some e → e.owner ≠ none) : Inv g u := by
  have owns : ∀ q c, u.Owns q c ↔ t.Owns q c := by
    intro q c
    rw [State.Owns, State.Owns, locks]
  refine ⟨layout, ?_, ?_, ?_, takes, scripts, plain, whole⟩
  · intro c nobody
    have nobody' : ∀ q, ¬ t.Owns q c := fun q mine => nobody q ((owns q c).mpr mine)
    rcases parts c with same | mine
    · rw [State.partOk_congr same fun k _ => congrFun kv k]
      exact inv.lists c nobody'
    · exact absurd mine (nobody' p)
  · rw [locks]
    exact inv.exclusive
  · rw [hist, kv]
    exact inv.history

end Steps

end Own

end Db

end CodeLearning
