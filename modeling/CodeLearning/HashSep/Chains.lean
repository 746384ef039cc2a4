import CodeLearning.Lists.HeaderList
import Mathlib.Data.Finset.Insert

/-!
# The hash table with separate chaining

`hashsep.c` keeps the keys of each cell in a list behind a header node. `find` searches the list of
the cell of its key, `insert` puts a key that is missing behind the header. The cells share one
memory. A table whose lists are empty is taken as given: `initializee_table` uses the size of the
array of lists as its address. `hash` and `nextprime` are not part of the source; the former returns
the number of a cell.
-/

namespace CodeLearning.HashSep

open LinkedList ListFamily
open CodeLearning.Lists

/-- `struct hashtbl`, with the hash function for its size. -/
structure Hashtbl where
  /-- `tablesize`. -/
  tablesize : Nat
  /-- `thelists`: the header of each cell. -/
  thelists : Fin tablesize → Position
  /-- `hash(key, tablesize)`. -/
  hash : Int → Fin tablesize

/-- `find`. Its loop is that of `Find` in `list.c`. -/
def find (fuel : Nat) (h : Hashtbl) (mem : Memory) (key : Int) : Option Position := do
  let l := h.thelists (h.hash key)
  let node ← load mem l
  findLoop mem key fuel node.next

/-- `insert`; `malloc` returns an address, or `NULL`, for which the function prints a message. -/
def insert (fuel : Nat) (h : Hashtbl) (mem : Memory) (key : Int) (malloc : Option Position) :
    Option Memory := do
  let pos ← find fuel h mem key
  if pos = null then
    match malloc with
    | none => some mem
    | some newcell =>
      let mem := mallocNode mem newcell 0
      let l := h.thelists (h.hash key)
      let header ← load mem l
      let mem ← store mem newcell ⟨0, header.next⟩
      let mem ← store mem l { header with next := newcell }
      let node ← load mem newcell
      store mem newcell { node with element := key }
  else some mem

/-- A call of the table. -/
inductive Call where
  /-- `find`. -/
  | find (key : Int)
  /-- `insert`, with what `malloc` would return. -/
  | insert (key : Int) (malloc : Option Position)
deriving DecidableEq

/-- What a caller reads at a position that `find` returned. -/
def retrieve (mem : Memory) (p : Position) : Option Int :=
  if p = null then none else (mem p).map Node.element

/-- A call: what is read at the position that `find` returned, and the memory after it. -/
def callTable (fuel : Nat) (h : Hashtbl) (mem : Memory) : Call → Option (Option Int × Memory)
  | .find key => (find fuel h mem key).map fun p => (retrieve mem p, mem)
  | .insert key malloc => (insert fuel h mem key malloc).map fun mem => (none, mem)

/-- What the call is for. -/
def callSet (set : Finset Int) : Call → Option Int × Finset Int
  | .find key => (if key ∈ set then some key else none, set)
  | .insert _ none => (none, set)
  | .insert key (some _) => (none, Insert.insert key set)

/-- What the calls return, and the memory after them. -/
def runTable (fuel : Nat) (h : Hashtbl) :
    Memory → List Call → Option (List (Option Int) × Memory)
  | mem, [] => some ([], mem)
  | mem, call :: calls => do
    let (answer, mem) ← callTable fuel h mem call
    let (answers, mem) ← runTable fuel h mem calls
    some (answer :: answers, mem)

/-- What the calls are for. -/
def runSet : Finset Int → List Call → List (Option Int) × Finset Int
  | set, [] => ([], set)
  | set, call :: calls =>
    let (answer, set) := callSet set call
    let (answers, set) := runSet set calls
    (answer :: answers, set)

/-- `malloc` returns addresses that are not allocated. -/
def Fresh (mem : Memory) : Call → Prop
  | .insert _ (some newcell) => newcell ≠ null ∧ mem newcell = none
  | _ => True

/-- `malloc` does so in every call of a run. -/
def FreshRun (fuel : Nat) (h : Hashtbl) : Memory → List Call → Prop
  | _, [] => True
  | mem, call :: calls => Fresh mem call ∧
    ∀ answer mem', callTable fuel h mem call = some (answer, mem') → FreshRun fuel h mem' calls

/-- The memory holds the lists of the table and nothing else; they hold the set, each key once and
in the list of its cell. -/
structure Holds (h : Hashtbl) (mem : Memory) (chains : Fin h.tablesize → List Entry)
    (set : Finset Int) : Prop where
  /-- The lists. -/
  stored : Stored h.thelists mem chains
  /-- A key is in the list of its cell. -/
  home : ∀ i, ∀ entry ∈ chains i, h.hash entry.2 = i
  /-- A key is in a list once. -/
  once : ∀ i, ((chains i).map Prod.snd).Nodup
  /-- The keys. -/
  keys : ∀ key, key ∈ set ↔ ∃ entry ∈ chains (h.hash key), entry.2 = key

section Table

variable {fuel : Nat} {h : Hashtbl} {mem mem' : Memory} {chains : Fin h.tablesize → List Entry}
  {set : Finset Int} {key : Int} {malloc : Option Position} {call : Call} {calls : List Call}

/-- Where `find` of `list.c` looks for a key. -/
theorem positionOf_spec (key : Int) (entries : List Entry)
    (nonnull : ∀ entry ∈ entries, entry.1 ≠ null) :
    (positionOf key entries = null ∧ ∀ entry ∈ entries, entry.2 ≠ key) ∨
      ∃ entry ∈ entries, entry.2 = key ∧ positionOf key entries = entry.1 := by
  induction entries with
  | nil => exact .inl ⟨rfl, fun entry mem => by cases mem⟩
  | cons entry entries rest =>
    by_cases here : entry.2 = key
    · exact .inr ⟨entry, List.mem_cons_self, here, if_pos here⟩
    · rw [positionOf, if_neg here]
      rcases rest fun e mem => nonnull e (List.mem_cons_of_mem entry mem) with
        ⟨isNull, absent⟩ | ⟨e, mem, isKey, found⟩
      · exact .inl ⟨isNull, List.forall_mem_cons.mpr ⟨here, absent⟩⟩
      · exact .inr ⟨e, List.mem_cons_of_mem entry mem, isKey, found⟩

/-- `find` returns the node of its key if the table has it, and `NULL` otherwise. -/
theorem Holds.find (key : Int) (holds : Holds h mem chains set)
    (enough : ∀ i, (chains i).length < fuel) :
    ∃ p, HashSep.find fuel h mem key = some p ∧ (p = null ↔ key ∉ set) ∧
      retrieve mem p = if key ∈ set then some key else none := by
  obtain ⟨node, loaded, tail⟩ := holds.stored.first (h.hash key)
  have found := findLoop_eq (x := key) tail (holds.stored.elements _) (enough (h.hash key))
  have nonnull : ∀ entry ∈ chains (h.hash key), entry.1 ≠ null := fun entry mem =>
    tail.ne_null (List.mem_map_of_mem mem)
  refine ⟨positionOf key (chains (h.hash key)), ?_, ?_⟩
  · simp only [HashSep.find, loaded, Option.bind_eq_bind, Option.bind_some, found]
  · rcases positionOf_spec key _ nonnull with
      ⟨isNull, absent⟩ | ⟨entry, inList, isKey, same⟩
    · have notIn : key ∉ set := by
        rw [holds.keys]
        rintro ⟨entry, inList, isKey⟩
        exact absent entry inList isKey
      rw [isNull, if_neg notIn]
      exact ⟨iff_of_true rfl notIn, rfl⟩
    · have inSet : key ∈ set := (holds.keys key).mpr ⟨entry, inList, isKey⟩
      have real := nonnull entry inList
      rw [same, if_pos inSet, retrieve, if_neg real, holds.stored.elements _ entry inList, isKey]
      exact ⟨iff_of_false real fun notIn => notIn inSet, rfl⟩

/-- A key that is missing is put behind the header of its cell, as `Insert` of `list.c` does. -/
theorem insert_eq (holds : Holds h mem chains set) (enough : ∀ i, (chains i).length < fuel)
    (absent : key ∉ set) {newcell : Position} (real : newcell ≠ null)
    (fresh : mem newcell = none) :
    HashSep.insert fuel h mem key (some newcell) =
      Lists.insert mem key newcell (h.thelists (h.hash key)) := by
  obtain ⟨p, found, isNull, -⟩ := holds.find key enough
  obtain ⟨node, loaded, -⟩ := holds.stored.first (h.hash key)
  have present := holds.stored.family.present (h.hash key)
  rw [load_eq present] at loaded
  have differs : h.thelists (h.hash key) ≠ newcell := by
    intro same
    rw [same, fresh] at loaded
    cases loaded
  simp only [HashSep.insert, found, isNull.mpr absent, Option.bind_eq_bind, Option.bind_some,
    if_true, Lists.insert, if_neg real, mallocNode, load_eq present, load_eq real,
    Function.update_of_ne differs, Function.update_of_ne differs.symm, loaded, store,
    Function.update_self, Option.map_some, Function.update_idem, Option.some.injEq]
  funext a
  by_cases isNew : a = newcell
  · simp [isNew, Function.update_of_ne differs.symm]
  · by_cases isHeader : a = h.thelists (h.hash key)
    · simp [isHeader, Function.update_of_ne differs]
    · simp [isNew, isHeader]

/-- `insert` of a key that is missing, when there is memory. -/
theorem Holds.insert_absent (holds : Holds h mem chains set)
    (enough : ∀ i, (chains i).length < fuel) (absent : key ∉ set) {newcell : Position}
    (real : newcell ≠ null) (fresh : mem newcell = none) :
    ∃ mem', HashSep.insert fuel h mem key (some newcell) = some mem' ∧
      Holds h mem' (Function.update chains (h.hash key) ((newcell, key) :: chains (h.hash key)))
        (Insert.insert key set) := by
  have legal : Legal h.thelists chains
      (.insert (h.hash key) key newcell (h.thelists (h.hash key))) := by
    refine ⟨List.mem_cons_self, real, fun i mem => ?_⟩
    obtain ⟨n, isNext⟩ := holds.stored.family.exists_next mem
    rw [link, fresh] at isNext
    cases isNext
  obtain ⟨mem', inserted, stored⟩ := holds.stored.insert legal
  have put : putBehind (h.thelists (h.hash key)) (newcell, key) (h.thelists (h.hash key))
      (chains (h.hash key)) = (newcell, key) :: chains (h.hash key) := by
    cases chains (h.hash key) with
    | nil => exact if_pos rfl
    | cons entry entries => exact if_pos rfl
  rw [put] at stored
  rw [insert_eq holds enough absent real fresh]
  refine ⟨mem', inserted, stored, ?_, ?_, ?_⟩
  · intro i entry inList
    by_cases same : i = h.hash key
    · rw [same, Function.update_self] at inList
      rcases List.mem_cons.mp inList with rfl | older
      · exact same.symm
      · exact same ▸ holds.home _ entry older
    · rw [Function.update_of_ne same] at inList
      exact holds.home i entry inList
  · intro i
    by_cases same : i = h.hash key
    · rw [same, Function.update_self, List.map_cons, List.nodup_cons]
      refine ⟨fun again => ?_, holds.once _⟩
      obtain ⟨entry, inList, isKey⟩ := List.mem_map.mp again
      exact absent ((holds.keys key).mpr ⟨entry, inList, isKey⟩)
    · rw [Function.update_of_ne same]
      exact holds.once i
  · intro k
    rw [Finset.mem_insert, holds.keys k]
    by_cases same : h.hash k = h.hash key
    · rw [same, Function.update_self]
      constructor
      · rintro (rfl | ⟨entry, inList, isKey⟩)
        · exact ⟨_, List.mem_cons_self, rfl⟩
        · exact ⟨entry, List.mem_cons_of_mem _ inList, isKey⟩
      · rintro ⟨entry, inList, isKey⟩
        rcases List.mem_cons.mp inList with rfl | older
        · exact .inl isKey.symm
        · exact .inr ⟨entry, older, isKey⟩
    · rw [Function.update_of_ne same]
      refine or_iff_right ?_
      rintro rfl
      exact same rfl

/-- A call makes a list longer by one at most, answers as the set does and changes the table as it
changes the set. -/
theorem Holds.step (holds : Holds h mem chains set) (fresh : Fresh mem call)
    (enough : ∀ i, (chains i).length < fuel) :
    ∃ mem' chains', callTable fuel h mem call = some ((callSet set call).1, mem') ∧
      Holds h mem' chains' (callSet set call).2 ∧
      ∀ i, (chains' i).length ≤ (chains i).length + 1 := by
  have still : ∀ i, (chains i).length ≤ (chains i).length + 1 := fun i => Nat.le_succ _
  cases call with
  | find key =>
    obtain ⟨p, found, -, answer⟩ := holds.find key enough
    exact ⟨mem, chains, by simp [callTable, callSet, found, answer], holds, still⟩
  | insert key malloc =>
    obtain ⟨p, found, isNull, -⟩ := holds.find key enough
    cases malloc with
    | none =>
      refine ⟨mem, chains, ?_, holds, still⟩
      simp only [callTable, HashSep.insert, found, Option.bind_eq_bind, Option.bind_some, callSet,
        ite_self, Option.map_some]
    | some newcell =>
      by_cases inSet : key ∈ set
      · have notNull : p ≠ null := fun same => (isNull.mp same) inSet
        refine ⟨mem, chains, ?_, ?_, still⟩
        · simp only [callTable, HashSep.insert, found, Option.bind_eq_bind, Option.bind_some,
            if_neg notNull, callSet, Option.map_some]
        · rw [callSet, Finset.insert_eq_of_mem inSet]
          exact holds
      · obtain ⟨mem', inserted, holds'⟩ := holds.insert_absent enough inSet fresh.1 fresh.2
        refine ⟨mem', _, by simp [callTable, callSet, inserted], holds', fun i => ?_⟩
        by_cases same : i = h.hash key
        · rw [same, Function.update_self]
          exact Nat.le_refl _
        · rw [Function.update_of_ne same]
          exact Nat.le_succ _

/-- Every run of calls on a table whose lists are empty answers as a run on a set does, and leaves
the memory as the lists of the table: each key in the list of its cell, once, and no other node. -/
theorem table_refines_set (holds : Holds h mem chains set) (fresh : FreshRun fuel h mem calls)
    (enough : ∀ i, (chains i).length + calls.length < fuel) :
    ∃ mem' chains', runTable fuel h mem calls = some ((runSet set calls).1, mem') ∧
      Holds h mem' chains' (runSet set calls).2 := by
  induction calls generalizing mem chains set with
  | nil => exact ⟨mem, chains, rfl, holds⟩
  | cons call calls rest =>
    have short : ∀ i, (chains i).length < fuel := fun i =>
      Nat.lt_of_le_of_lt (Nat.le_add_right _ _) (enough i)
    obtain ⟨mem₁, chains₁, called, holds₁, longer⟩ := holds.step fresh.1 short
    have enough₁ : ∀ i, (chains₁ i).length + calls.length < fuel := by
      intro i
      have bound := enough i
      have more := longer i
      rw [List.length_cons] at bound
      omega
    obtain ⟨mem', chains', ran, holds'⟩ := rest holds₁ (fresh.2 _ _ called) enough₁
    exact ⟨mem', chains', by simp [runTable, called, ran, runSet], holds'⟩

/-- A table of two cells. -/
def twoCells : Hashtbl where
  tablesize := 2
  thelists i := i.val + 1
  hash key := if key % 2 = 0 then ⟨0, Nat.two_pos⟩ else ⟨1, Nat.one_lt_two⟩

/-- Two keys of one cell are inserted, one of them twice, and one of the other while there is no
memory. -/
def someCalls : List Call :=
  [.insert 4 (some 10), .insert 6 (some 11), .insert 4 (some 12), .insert 5 none, .find 4,
    .find 5, .find 6]

/-- In that run the two keys are found. -/
theorem table_refines_set_two : ∃ mem' chains',
    runTable 10 twoCells twoHeaders someCalls =
        some ([none, none, none, none, some 4, none, some 6], mem') ∧
      Holds twoCells mem' chains' {6, 4} := by
  have holds : Holds twoCells twoHeaders (fun _ => []) ∅ :=
    ⟨twoHeaders_stored, fun _ _ mem => absurd mem List.not_mem_nil, fun _ => List.nodup_nil,
      by simp⟩
  have fresh : FreshRun 10 twoCells twoHeaders someCalls := by
    refine ⟨⟨by decide, by decide⟩, ?_⟩
    rintro _ mem₁ first
    cases first
    refine ⟨⟨by decide, by decide⟩, ?_⟩
    rintro _ mem₂ second
    cases second
    refine ⟨⟨by decide, by decide⟩, ?_⟩
    rintro _ mem₃ _
    refine ⟨trivial, fun _ _ _ => ?_⟩
    exact ⟨trivial, fun _ _ _ => ⟨trivial, fun _ _ _ => ⟨trivial, fun _ _ _ => trivial⟩⟩⟩
  obtain ⟨mem', chains', ran, holds'⟩ := table_refines_set holds fresh fun i => by decide
  have answers : (runSet ∅ someCalls).1 = [none, none, none, none, some 4, none, some 6] := by
    decide
  have keys : (runSet ∅ someCalls).2 = {6, 4} := by decide
  rw [answers] at ran
  rw [keys] at holds'
  exact ⟨mem', chains', ran, holds'⟩

end Table

end CodeLearning.HashSep
