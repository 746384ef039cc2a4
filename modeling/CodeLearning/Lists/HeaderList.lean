import CodeLearning.Lib.ListFamily

/-!
# Linked lists with a header

`list.c` keeps each list behind a header node. Callers hold positions, which are addresses of
nodes: `Find` and `FindPrevious` return them, `Insert` puts a new node behind one, `Delete` and
`DeleteList` free nodes. Several lists share the memory. A run of calls on any of them is a run on
sequences of nodes: no call touches memory that is freed or belongs to another list, and none is
lost.
-/

namespace CodeLearning.Lists

open LinkedList ListFamily

/-- An address; `0` is `NULL`. -/
abbrev Position := Nat

/-- `NULL`. -/
def null : Position := 0

/-- `struct Node`. -/
structure Node where
  /-- `Element`. -/
  element : Int
  /-- `Next`. -/
  next : Position
deriving DecidableEq

/-- The nodes that are allocated. -/
abbrev Memory := Position → Option Node

/-- The node at an address; `none` is the access to an address that is not allocated. -/
def load (mem : Memory) (p : Position) : Option Node := if p = null then none else mem p

/-- A node is assigned. -/
def store (mem : Memory) (p : Position) (node : Node) : Option Memory :=
  (load mem p).map fun _ => Function.update mem p (some node)

/-- `free`; `none` is the second `free` of an address. -/
def free (mem : Memory) (p : Position) : Option Memory :=
  (load mem p).map fun _ => Function.update mem p none

/-- `malloc`, which returned an address, and the assignment of the element. -/
def mallocNode (mem : Memory) (tmp : Position) (x : Int) : Memory :=
  Function.update mem tmp (some ⟨x, null⟩)

/-- `IsLast`. -/
def isLast (mem : Memory) (p : Position) : Option Bool := do
  let node ← load mem p
  some (node.next = null)

/-- The loop of `Find`; `none` when it goes on after so many nodes. -/
def findLoop (mem : Memory) (x : Int) : Nat → Position → Option Position
  | 0, _ => none
  | fuel + 1, p =>
    if p = null then some null
    else do
      let node ← load mem p
      if node.element ≠ x then findLoop mem x fuel node.next else some p

/-- `Find`. -/
def find (fuel : Nat) (mem : Memory) (x : Int) (l : Position) : Option Position := do
  let node ← load mem l
  findLoop mem x fuel node.next

/-- The loop of `FindPrevious`. -/
def findPreviousLoop (mem : Memory) (x : Int) : Nat → Position → Option Position
  | 0, _ => none
  | fuel + 1, p => do
    let node ← load mem p
    if node.next = null then some p
    else
      let following ← load mem node.next
      if following.element ≠ x then findPreviousLoop mem x fuel node.next else some p

/-- `FindPrevious`. -/
def findPrevious (fuel : Nat) (mem : Memory) (x : Int) (l : Position) : Option Position :=
  findPreviousLoop mem x fuel l

/-- `Delete`. -/
def delete (fuel : Nat) (mem : Memory) (x : Int) (l : Position) : Option Memory := do
  let p ← findPrevious fuel mem x l
  if !(← isLast mem p) then
    let node ← load mem p
    let tmp := node.next
    let following ← load mem tmp
    let mem ← store mem p { node with next := following.next }
    free mem tmp
  else some mem

/-- `Insert`, for which `malloc` returns an address. When it returns `NULL`, the function prints a
message and assigns through `NULL`. -/
def insert (mem : Memory) (x : Int) (tmp p : Position) : Option Memory :=
  if tmp = null then none
  else do
    let mem := mallocNode mem tmp x
    let node ← load mem p
    let mem ← store mem tmp ⟨x, node.next⟩
    store mem p { node with next := tmp }

/-- The loop of `DeleteList`. -/
def deleteLoop : Nat → Memory → Position → Option Memory
  | 0, _, _ => none
  | fuel + 1, mem, p =>
    if p = null then some mem
    else do
      let node ← load mem p
      let mem ← free mem p
      deleteLoop fuel mem node.next

/-- `DeleteList`. -/
def deleteList (fuel : Nat) (mem : Memory) (l : Position) : Option Memory := do
  let node ← load mem l
  let mem ← store mem l { node with next := null }
  deleteLoop fuel mem node.next

/-! ## The sequences -/

/-- A node of a list: its address and its element. -/
abbrev Entry := Position × Int

/-- What `Find` returns. -/
def positionOf (x : Int) : List Entry → Position
  | [] => null
  | entry :: entries => if entry.2 = x then entry.1 else positionOf x entries

/-- What `FindPrevious` returns: the position before the first node with the element, or the last
position. -/
def previousOf (x : Int) : Position → List Entry → Position
  | p, [] => p
  | p, entry :: entries => if entry.2 = x then p else previousOf x entry.1 entries

/-- The sequence with a new node behind a position. -/
def putBehind (p : Position) (new : Entry) : Position → List Entry → List Entry
  | first, [] => if first = p then [new] else []
  | first, entry :: entries =>
    if first = p then new :: entry :: entries else entry :: putBehind p new entry.1 entries

/-- A call on one of the lists. -/
inductive Call (ι : Type) where
  /-- `Find`. -/
  | find (i : ι) (x : Int)
  /-- `FindPrevious`. -/
  | findPrevious (i : ι) (x : Int)
  /-- `Insert`, for which `malloc` returns an address. -/
  | insert (i : ι) (x : Int) (tmp p : Position)
  /-- `Delete`. -/
  | delete (i : ι) (x : Int)
  /-- `DeleteList`. -/
  | deleteList (i : ι)
deriving DecidableEq

section Calls

variable {ι : Type} [DecidableEq ι]

/-- A call: the position it returns, if it returns one, and the memory after it. -/
def callMemory (fuel : Nat) (header : ι → Position) (mem : Memory) :
    Call ι → Option (Position × Memory)
  | .find i x => (find fuel mem x (header i)).map fun p => (p, mem)
  | .findPrevious i x => (findPrevious fuel mem x (header i)).map fun p => (p, mem)
  | .insert _ x tmp p => (insert mem x tmp p).map fun mem => (null, mem)
  | .delete i x => (delete fuel mem x (header i)).map fun mem => (null, mem)
  | .deleteList i => (deleteList fuel mem (header i)).map fun mem => (null, mem)

/-- What the call is for. -/
def callLists (header : ι → Position) (lists : ι → List Entry) :
    Call ι → Position × (ι → List Entry)
  | .find i x => (positionOf x (lists i), lists)
  | .findPrevious i x => (previousOf x (header i) (lists i), lists)
  | .insert i x tmp p =>
    (null, Function.update lists i (putBehind p (tmp, x) (header i) (lists i)))
  | .delete i x => (null, Function.update lists i ((lists i).eraseP fun entry => entry.2 = x))
  | .deleteList i => (null, Function.update lists i [])

/-- A caller inserts at a position of the list, and `malloc` returns a new address. -/
def Legal (header : ι → Position) (lists : ι → List Entry) : Call ι → Prop
  | .insert i _ tmp p => p ∈ header i :: (lists i).map Prod.fst ∧ tmp ≠ null ∧
      ∀ j, tmp ∉ header j :: (lists j).map Prod.fst
  | _ => True

/-- The positions that the calls return, and the memory after them. -/
def runMemory (fuel : Nat) (header : ι → Position) :
    Memory → List (Call ι) → Option (List Position × Memory)
  | mem, [] => some ([], mem)
  | mem, call :: calls => do
    let (p, mem) ← callMemory fuel header mem call
    let (positions, mem) ← runMemory fuel header mem calls
    some (p :: positions, mem)

/-- What the calls are for. -/
def runLists (header : ι → Position) :
    (ι → List Entry) → List (Call ι) → List Position × (ι → List Entry)
  | lists, [] => ([], lists)
  | lists, call :: calls =>
    let (p, lists) := callLists header lists call
    let (positions, lists) := runLists header lists calls
    (p :: positions, lists)

/-- Every call of a run is legal. -/
def LegalRun (header : ι → Position) : (ι → List Entry) → List (Call ι) → Prop
  | _, [] => True
  | lists, call :: calls =>
    Legal header lists call ∧ LegalRun header (callLists header lists call).2 calls

/-- The address of the next node. -/
def link (mem : Memory) (p : Position) : Option Position := (mem p).map Node.next

/-- The memory holds the lists and nothing else. -/
structure Stored (header : ι → Position) (mem : Memory) (lists : ι → List Entry) : Prop where
  /-- Every node is on one list, and reached from its header. -/
  family : Family null (link mem) header fun i => header i :: (lists i).map Prod.fst
  /-- The elements. -/
  elements : ∀ i, ∀ entry ∈ lists i, (mem entry.1).map Node.element = some entry.2

end Calls

/-! ## What the functions do to one list -/

section Functions

variable {mem : Memory} {p : Position} {entry : Entry} {entries : List Entry} {x : Int}
  {fuel : Nat} {node : Node}

/-- An allocated node that is not `NULL` is read. -/
theorem load_eq (nonnull : p ≠ null) : load mem p = mem p := if_neg nonnull

/-- The first node of a path of entries. -/
theorem load_entry (path : Path null (link mem) p (entry.1 :: entries.map Prod.fst))
    (element : (mem entry.1).map Node.element = some entry.2) :
    p = entry.1 ∧ p ≠ null ∧ ∃ n, load mem p = some ⟨entry.2, n⟩ ∧
      Path null (link mem) n (entries.map Prod.fst) := by
  obtain ⟨rfl, nonnull, n, isNext, tail⟩ := path
  obtain ⟨node, found, rfl⟩ := Option.map_eq_some_iff.mp isNext
  rw [found, Option.map_some, Option.some.injEq] at element
  refine ⟨rfl, nonnull, node.next, ?_, tail⟩
  rw [load_eq nonnull, found, ← element]

/-- The loop of `Find` on a path of entries. -/
theorem findLoop_eq (path : Path null (link mem) p (entries.map Prod.fst))
    (elements : ∀ entry ∈ entries, (mem entry.1).map Node.element = some entry.2)
    (enough : entries.length < fuel) : findLoop mem x fuel p = some (positionOf x entries) := by
  induction entries generalizing p fuel with
  | nil =>
    obtain ⟨fuel, rfl⟩ := Nat.exists_eq_succ_of_ne_zero (Nat.ne_of_gt enough)
    exact if_pos path
  | cons entry entries rest =>
    obtain ⟨fuel, rfl⟩ := Nat.exists_eq_succ_of_ne_zero (Nat.ne_zero_of_lt enough)
    obtain ⟨rfl, nonnull, n, found, tail⟩ := load_entry path (elements entry List.mem_cons_self)
    have further := rest tail (fun e mem => elements e (List.mem_cons_of_mem entry mem))
      (Nat.lt_of_succ_lt_succ enough)
    rw [findLoop, if_neg nonnull, found, positionOf]
    by_cases same : entry.2 = x
    · simp [same]
    · simp [same, further]

/-- The loop of `FindPrevious` on a path of entries behind a position. -/
theorem findPreviousLoop_eq (path : Path null (link mem) p (p :: entries.map Prod.fst))
    (elements : ∀ entry ∈ entries, (mem entry.1).map Node.element = some entry.2)
    (enough : entries.length < fuel) :
    findPreviousLoop mem x fuel p = some (previousOf x p entries) := by
  induction entries generalizing p fuel with
  | nil =>
    obtain ⟨fuel, rfl⟩ := Nat.exists_eq_succ_of_ne_zero (Nat.ne_of_gt enough)
    obtain ⟨-, nonnull, n, isNext, atEnd⟩ := path
    obtain ⟨node, found, rfl⟩ := Option.map_eq_some_iff.mp isNext
    have isLast : node.next = null := atEnd
    simp [findPreviousLoop, load_eq nonnull, found, isLast, previousOf]
  | cons entry entries rest =>
    obtain ⟨fuel, rfl⟩ := Nat.exists_eq_succ_of_ne_zero (Nat.ne_zero_of_lt enough)
    obtain ⟨-, nonnull, n, isNext, tail⟩ := path
    obtain ⟨node, found, rfl⟩ := Option.map_eq_some_iff.mp isNext
    obtain ⟨same, some_, m, following, -⟩ := load_entry tail (elements entry List.mem_cons_self)
    have tail' : Path null (link mem) entry.1 (entry.1 :: entries.map Prod.fst) := by
      rw [same] at tail
      exact tail
    have further := rest tail' (fun e mem => elements e (List.mem_cons_of_mem entry mem))
      (Nat.lt_of_succ_lt_succ enough)
    rw [same] at some_ following
    by_cases isX : entry.2 = x
    · simp [findPreviousLoop, load_eq nonnull, found, same, some_, following, previousOf, isX]
    · simp [findPreviousLoop, load_eq nonnull, found, same, some_, following, previousOf, isX,
        further]

/-- Where the element is missing, `FindPrevious` returns the last position. -/
theorem previousOf_absent (absent : ∀ entry ∈ entries, entry.2 ≠ x) (p : Position) :
    ∃ front, p :: entries.map Prod.fst = front ++ [previousOf x p entries] := by
  induction entries generalizing p with
  | nil => exact ⟨[], rfl⟩
  | cons entry entries rest =>
    obtain ⟨front, split⟩ := rest (fun e mem => absent e (List.mem_cons_of_mem entry mem)) entry.1
    refine ⟨p :: front, ?_⟩
    rw [previousOf, if_neg (absent entry List.mem_cons_self), List.map_cons, split]
    rfl

/-- Where the element is, `FindPrevious` returns the position before its first node. -/
theorem previousOf_present (pre post : List Entry) (absent : ∀ entry ∈ pre, entry.2 ≠ x)
    (isX : entry.2 = x) (p : Position) :
    ∃ front, p :: pre.map Prod.fst = front ++ [previousOf x p (pre ++ entry :: post)] := by
  induction pre generalizing p with
  | nil => exact ⟨[], by simp [previousOf, isX]⟩
  | cons other pre rest =>
    obtain ⟨front, split⟩ := rest (fun e mem => absent e (List.mem_cons_of_mem other mem)) other.1
    have further : previousOf x p (other :: pre ++ entry :: post) =
        previousOf x other.1 (pre ++ entry :: post) := if_neg (absent other List.mem_cons_self)
    refine ⟨p :: front, ?_⟩
    rw [further, List.map_cons, split]
    rfl

/-- A new node behind a position of a list. -/
theorem putBehind_split (new : Entry) {first : Position}
    (mem : p ∈ first :: entries.map Prod.fst) :
    ∃ front back, first :: entries.map Prod.fst = front ++ p :: back ∧
      first :: (putBehind p new first entries).map Prod.fst = front ++ p :: new.1 :: back := by
  induction entries generalizing first with
  | nil =>
    obtain rfl := List.mem_singleton.mp mem
    exact ⟨[], [], rfl, by simp [putBehind]⟩
  | cons entry entries rest =>
    by_cases here : first = p
    · exact ⟨[], (entry :: entries).map Prod.fst, by rw [here]; rfl, by simp [putBehind, here]⟩
    · have later : p ∈ entry.1 :: entries.map Prod.fst := by
        rcases List.mem_cons.mp mem with same | later
        · exact absurd same.symm here
        · exact later
      obtain ⟨front, back, split, put⟩ := rest later
      refine ⟨first :: front, back, ?_, ?_⟩
      · rw [List.map_cons, split]
        rfl
      · rw [putBehind, if_neg here, List.map_cons, put]
        rfl

/-- The entries after a node is put behind a position. -/
theorem mem_putBehind {new other : Entry} {first : Position}
    (mem : other ∈ putBehind p new first entries) : other = new ∨ other ∈ entries := by
  induction entries generalizing first with
  | nil =>
    rw [putBehind] at mem
    split at mem
    · exact .inl (List.mem_singleton.mp mem)
    · cases mem
  | cons entry entries rest =>
    rw [putBehind] at mem
    split at mem
    · exact List.mem_cons.mp mem
    · rcases List.mem_cons.mp mem with same | later
      · exact .inr (List.mem_cons.mpr (.inl same))
      · exact (rest later).imp id (List.mem_cons_of_mem entry)

/-- The loop of `DeleteList` frees the nodes of a path. -/
theorem deleteLoop_eq {l : List Position} (path : Path null (link mem) p l)
    (enough : l.length < fuel) :
    deleteLoop fuel mem p = some fun q => if q ∈ l then none else mem q := by
  induction l generalizing mem p fuel with
  | nil =>
    obtain ⟨fuel, rfl⟩ := Nat.exists_eq_succ_of_ne_zero (Nat.ne_of_gt enough)
    have isNull : p = null := path
    rw [deleteLoop, if_pos isNull]
    simp
  | cons q l rest =>
    obtain ⟨fuel, rfl⟩ := Nat.exists_eq_succ_of_ne_zero (Nat.ne_zero_of_lt enough)
    have distinct := path.nodup
    obtain ⟨rfl, nonnull, n, isNext, tail⟩ := path
    obtain ⟨node, found, rfl⟩ := Option.map_eq_some_iff.mp isNext
    have outside : p ∉ l := (List.nodup_cons.mp distinct).1
    have links : link (Function.update mem p none) =
        Function.update (link mem) p none := by
      funext a
      by_cases same : a = p
      · simp [link, same]
      · simp [link, Function.update_of_ne same]
    have tail' : Path null (link (Function.update mem p none)) node.next l := by
      rw [links]
      exact tail.update_outside outside none
    have further := rest tail' (Nat.lt_of_succ_lt_succ enough)
    have loaded : load mem p = some node := by rw [load_eq nonnull, found]
    simp only [deleteLoop, if_neg nonnull, loaded, free, Option.map_some, Option.bind_eq_bind,
      Option.bind_some, further, Option.some.injEq]
    funext a
    by_cases same : a = p
    · simp [same, outside]
    · simp [same]

end Functions

/-! ## Every call does what it is for -/

section Stored

variable {ι : Type} [DecidableEq ι] {header : ι → Position} {lists : ι → List Entry}
  {mem mem' : Memory} {fuel : Nat} {i : ι} {x : Int} {p tmp : Position} {call : Call ι}
  {calls : List (Call ι)}

omit [DecidableEq ι] in
/-- The nodes of one list. -/
theorem Stored.path (stored : Stored header mem lists) (i : ι) :
    Path null (link mem) (header i) (header i :: (lists i).map Prod.fst) := stored.family.path i

omit [DecidableEq ι] in
/-- The header of a list and the nodes behind it. -/
theorem Stored.first (stored : Stored header mem lists) (i : ι) :
    ∃ node, load mem (header i) = some node ∧
      Path null (link mem) node.next ((lists i).map Prod.fst) := by
  obtain ⟨-, nonnull, n, isNext, tail⟩ := stored.path i
  obtain ⟨node, found, rfl⟩ := Option.map_eq_some_iff.mp isNext
  exact ⟨node, by rw [load_eq nonnull, found], tail⟩

/-- The addresses of all lists when one is replaced. -/
theorem addresses_update (l : List Entry) :
    (fun j => header j :: (Function.update lists i l j).map Prod.fst) =
      Function.update (fun j => header j :: (lists j).map Prod.fst) i
        (header i :: l.map Prod.fst) := by
  funext j
  by_cases same : j = i
  · rw [same, Function.update_self, Function.update_self]
  · rw [Function.update_of_ne same, Function.update_of_ne same]

omit [DecidableEq ι] in
/-- A stored node stays when memory is changed elsewhere. -/
theorem Stored.element (stored : Stored header mem lists) {entry : Entry} (inList : entry ∈ lists i)
    (same : mem' entry.1 = mem entry.1) : (mem' entry.1).map Node.element = some entry.2 := by
  rw [same]
  exact stored.elements i entry inList

/-- `Insert` behind a position of a list. -/
theorem Stored.insert (stored : Stored header mem lists)
    (legal : Legal header lists (.insert i x tmp p)) :
    ∃ mem', Lists.insert mem x tmp p = some mem' ∧
      Stored header mem' (Function.update lists i (putBehind p (tmp, x) (header i) (lists i))) := by
  obtain ⟨inList, nonnull, isNew⟩ := legal
  have fresh : mem tmp = none := by
    cases found : mem tmp with
    | none => rfl
    | some node =>
      obtain ⟨j, mine⟩ := stored.family.all tmp node.next (by rw [link, found]; rfl)
      exact absurd mine (isNew j)
  obtain ⟨front, back, split, put⟩ := putBehind_split (tmp, x) inList
  obtain ⟨n, isNext⟩ := stored.family.exists_next (i := i) (a := p) inList
  obtain ⟨node, found, rfl⟩ := Option.map_eq_some_iff.mp isNext
  have pNonnull : p ≠ null := (stored.path i).ne_null inList
  have differs : p ≠ tmp := by
    rintro rfl
    exact isNew i inList
  have freshLink : link mem tmp = none := by rw [link, fresh]; rfl
  have family := stored.family.insert split isNext nonnull freshLink
  refine ⟨Function.update (Function.update mem tmp (some ⟨x, node.next⟩)) p
    (some { node with next := tmp }), ?_, ?_, ?_⟩
  · simp only [Lists.insert, if_neg nonnull, mallocNode, load_eq pNonnull,
      Function.update_of_ne differs, found, Option.bind_eq_bind, Option.bind_some, store,
      load_eq nonnull, Function.update_self, Option.map_some, Function.update_idem]
  · rw [addresses_update, put]
    have links : link (Function.update (Function.update mem tmp (some ⟨x, node.next⟩)) p
        (some { node with next := tmp })) =
        Function.update (Function.update (link mem) tmp (some node.next)) p (some tmp) := by
      funext a
      by_cases isP : a = p
      · simp [link, isP]
      · by_cases isTmp : a = tmp
        · simp [link, isTmp, differs.symm]
        · simp [link, isP, isTmp]
    rw [links]
    exact family
  · have keeps : ∀ a, (mem a).isSome = true →
        ((Function.update (Function.update mem tmp (some ⟨x, node.next⟩)) p
          (some { node with next := tmp })) a).map Node.element = (mem a).map Node.element := by
      intro a allocated
      have notTmp : a ≠ tmp := by
        rintro rfl
        rw [fresh] at allocated
        cases allocated
      by_cases isP : a = p
      · rw [isP, Function.update_self, found]
        rfl
      · rw [Function.update_of_ne isP, Function.update_of_ne notTmp]
    have old : ∀ j, ∀ entry ∈ lists j,
        ((Function.update (Function.update mem tmp (some ⟨x, node.next⟩)) p
          (some { node with next := tmp })) entry.1).map Node.element = some entry.2 := by
      intro j entry inList
      have element := stored.elements j entry inList
      obtain ⟨node', found', -⟩ := Option.map_eq_some_iff.mp element
      rw [keeps entry.1 (by rw [found']; rfl)]
      exact element
    intro j entry inList
    by_cases same : j = i
    · rw [same, Function.update_self] at inList
      rcases mem_putBehind inList with rfl | older
      · dsimp only
        rw [Function.update_of_ne differs.symm, Function.update_self]
        rfl
      · exact old i entry older
    · rw [Function.update_of_ne same] at inList
      exact old j entry inList

omit [DecidableEq ι] in
/-- `Delete` of an element that is missing changes nothing. -/
theorem Stored.delete_absent (stored : Stored header mem lists)
    (absent : ∀ entry ∈ lists i, entry.2 ≠ x) (enough : (lists i).length < fuel) :
    Lists.delete fuel mem x (header i) = some mem := by
  obtain ⟨front, split⟩ := previousOf_absent absent (header i)
  have path := stored.path i
  have before := findPreviousLoop_eq (x := x) path (stored.elements i) enough
  rw [split] at path
  obtain ⟨-, nonnull, n, isNext, atEnd⟩ := path.suffix
  obtain ⟨node, found, rfl⟩ := Option.map_eq_some_iff.mp isNext
  have isLast : node.next = null := atEnd
  simp only [Lists.delete, findPrevious, before, Option.bind_eq_bind, Option.bind_some,
    Lists.isLast, load_eq nonnull, found, isLast, decide_true, Bool.not_true, Bool.false_eq_true,
    if_false]

/-- `Delete` frees the first node with the element. -/
theorem Stored.delete_present (stored : Stored header mem lists) {pre post : List Entry}
    {entry : Entry} (split : lists i = pre ++ entry :: post) (absent : ∀ e ∈ pre, e.2 ≠ x)
    (isX : entry.2 = x) (enough : (lists i).length < fuel) :
    ∃ mem', Lists.delete fuel mem x (header i) = some mem' ∧
      Stored header mem' (Function.update lists i (pre ++ post)) := by
  have path := stored.path i
  have before := findPreviousLoop_eq (x := x) path (stored.elements i) enough
  rw [split] at before path
  obtain ⟨front, isFront⟩ := previousOf_present pre post absent isX (header i)
  generalize previousOf x (header i) (pre ++ entry :: post) = p at before isFront
  have addresses : header i :: (pre ++ entry :: post).map Prod.fst =
      front ++ p :: entry.1 :: post.map Prod.fst := by
    rw [List.map_append, ← List.cons_append, isFront, List.append_assoc]
    rfl
  rw [addresses] at path
  obtain ⟨-, nonnull, n, isNext, tail⟩ := path.suffix
  obtain ⟨node, found, rfl⟩ := Option.map_eq_some_iff.mp isNext
  obtain ⟨sameNext, some_, m, isNext', -⟩ := tail
  obtain ⟨following, found', rfl⟩ := Option.map_eq_some_iff.mp isNext'
  have distinct := path.nodup
  have differs : entry.1 ≠ p := by
    have node := (List.nodup_cons.mp (List.nodup_append.mp distinct).2.1).1
    intro same
    exact node (by rw [← same]; exact List.mem_cons_self)
  have family := stored.family.remove (i := i)
    (by rw [split]; exact addresses) (n := following.next) (by rw [link, found']; rfl)
  refine ⟨Function.update (Function.update mem p (some { node with next := following.next }))
    entry.1 none, ?_, ?_, ?_⟩
  · simp only [Lists.delete, findPrevious, before, Option.bind_eq_bind, Option.bind_some,
      Lists.isLast, load_eq nonnull, found, sameNext, some_, decide_false, Bool.not_false, if_true,
      load_eq some_, found', store, Option.map_some, free,
      Function.update_of_ne differs]
  · have back : header i :: (pre ++ post).map Prod.fst = front ++ p :: post.map Prod.fst := by
      rw [List.map_append, ← List.cons_append, isFront, List.append_assoc]
      rfl
    rw [addresses_update, back]
    have links : link (Function.update (Function.update mem p
        (some { node with next := following.next })) entry.1 none) =
        Function.update (Function.update (link mem) p (some following.next)) entry.1 none := by
      funext a
      by_cases isEntry : a = entry.1
      · simp [link, isEntry]
      · by_cases isP : a = p
        · simp [link, isP, differs.symm]
        · simp [link, isP, isEntry]
    rw [links]
    exact family
  · have old : ∀ j, ∀ e ∈ lists j, e.1 ≠ entry.1 →
        ((Function.update (Function.update mem p (some { node with next := following.next }))
          entry.1 none) e.1).map Node.element = some e.2 := by
      intro j e inList notEntry
      have element := stored.elements j e inList
      rw [Function.update_of_ne notEntry]
      by_cases isP : e.1 = p
      · rw [isP, Function.update_self]
        rw [isP, found] at element
        exact element
      · rw [Function.update_of_ne isP]
        exact element
    have inI : entry.1 ∈ header i :: (lists i).map Prod.fst := by
      rw [split]
      simp
    intro j e inList
    by_cases same : j = i
    · subst same
      rw [Function.update_self] at inList
      have older : e ∈ lists j := by
        rw [split]
        rcases List.mem_append.mp inList with inPre | inPost
        · exact List.mem_append_left _ inPre
        · exact List.mem_append_right _ (List.mem_cons_of_mem _ inPost)
      have nodup := (stored.path j).nodup
      rw [List.nodup_cons, split, List.map_append, List.map_cons] at nodup
      refine old j e older ?_
      intro sameAddress
      have inOthers : entry.1 ∈ pre.map Prod.fst ++ post.map Prod.fst := by
        rw [← List.map_append, ← sameAddress]
        exact List.mem_map_of_mem inList
      have unique := nodup.2
      rw [List.nodup_middle] at unique
      exact (List.nodup_cons.mp unique).1 inOthers
    · rw [Function.update_of_ne same] at inList
      refine old j e inList ?_
      intro sameAddress
      have inJ : entry.1 ∈ header j :: (lists j).map Prod.fst := by
        rw [← sameAddress]
        exact List.mem_cons_of_mem _ (List.mem_map_of_mem inList)
      exact same (stored.family.apart j i entry.1 inJ inI)

/-- `Delete`. -/
theorem Stored.delete (stored : Stored header mem lists) (enough : (lists i).length < fuel) :
    ∃ mem', Lists.delete fuel mem x (header i) = some mem' ∧
      Stored header mem'
        (Function.update lists i ((lists i).eraseP fun entry => entry.2 = x)) := by
  by_cases present : ∃ entry ∈ lists i, entry.2 = x
  · obtain ⟨entry, inList, isX⟩ := present
    obtain ⟨first, pre, post, absent, isFirst, split, erased⟩ :=
      List.exists_of_eraseP (p := fun entry => decide (entry.2 = x)) inList (decide_eq_true isX)
    rw [erased]
    exact stored.delete_present split (fun e mem => by simpa using absent e mem)
      (of_decide_eq_true isFirst) enough
  · have absent : ∀ entry ∈ lists i, entry.2 ≠ x := fun entry inList isX =>
      present ⟨entry, inList, isX⟩
    have unchanged : (lists i).eraseP (fun entry => decide (entry.2 = x)) = lists i :=
      List.eraseP_of_forall_not fun entry inList => by simpa using absent entry inList
    refine ⟨mem, stored.delete_absent absent enough, ?_⟩
    rw [unchanged, Function.update_eq_self]
    exact stored

/-- `DeleteList`. -/
theorem Stored.deleteList (stored : Stored header mem lists)
    (enough : (lists i).length < fuel) :
    ∃ mem', Lists.deleteList fuel mem (header i) = some mem' ∧
      Stored header mem' (Function.update lists i []) := by
  obtain ⟨node, loaded, tail⟩ := stored.first i
  have nonnull := stored.family.present i
  rw [load_eq nonnull] at loaded
  have notIn : header i ∉ (lists i).map Prod.fst :=
    (List.nodup_cons.mp (stored.path i).nodup).1
  have links : link (Function.update mem (header i) (some { node with next := null })) =
      Function.update (link mem) (header i) (some null) := by
    funext a
    by_cases same : a = header i
    · simp [link, same]
    · simp [link, same]
  have tail' : Path null (link (Function.update mem (header i) (some { node with next := null })))
      node.next ((lists i).map Prod.fst) := by
    rw [links]
    exact tail.update_outside notIn _
  have enough' : ((lists i).map Prod.fst).length < fuel := by rw [List.length_map]; exact enough
  have freed := deleteLoop_eq tail' enough'
  refine ⟨fun q => if q ∈ (lists i).map Prod.fst then none
    else Function.update mem (header i) (some { node with next := null }) q, ?_, ?_, ?_⟩
  · simp only [Lists.deleteList, load_eq nonnull, loaded, Option.bind_eq_bind, Option.bind_some,
      store, Option.map_some]
    exact freed
  · rw [addresses_update]
    have family := stored.family.clear (i := i) rfl
    have cleared : link (fun q => if q ∈ (lists i).map Prod.fst then none
        else Function.update mem (header i) (some { node with next := null }) q) =
        fun b => if b ∈ (lists i).map Prod.fst then none
          else Function.update (link mem) (header i) (some null) b := by
      rw [← links]
      funext a
      simp only [link]
      split
      · rfl
      · rfl
    rw [cleared]
    exact family
  · intro j entry inList
    by_cases same : j = i
    · rw [same, Function.update_self] at inList
      cases inList
    · rw [Function.update_of_ne same] at inList
      have inJ : entry.1 ∈ header j :: (lists j).map Prod.fst :=
        List.mem_cons_of_mem _ (List.mem_map_of_mem inList)
      have notI : entry.1 ∉ header i :: (lists i).map Prod.fst := fun inI =>
        same (stored.family.apart j i entry.1 inJ inI)
      rw [List.mem_cons, not_or] at notI
      rw [if_neg notI.2, Function.update_of_ne notI.1]
      exact stored.elements j entry inList

/-- Every legal call does what it is for and leaves the memory as the lists that follow. -/
theorem Stored.step (stored : Stored header mem lists) (legal : Legal header lists call)
    (enough : ∀ i, (lists i).length < fuel) :
    ∃ mem', callMemory fuel header mem call = some ((callLists header lists call).1, mem') ∧
      Stored header mem' (callLists header lists call).2 := by
  cases call with
  | find i x =>
    obtain ⟨node, loaded, tail⟩ := stored.first i
    have found := findLoop_eq (x := x) tail (stored.elements i) (enough i)
    refine ⟨mem, ?_, stored⟩
    simp [callMemory, callLists, Lists.find, loaded, found]
  | findPrevious i x =>
    have found := findPreviousLoop_eq (x := x) (stored.path i) (stored.elements i) (enough i)
    refine ⟨mem, ?_, stored⟩
    simp [callMemory, callLists, Lists.findPrevious, found]
  | insert i x tmp p =>
    obtain ⟨mem', inserted, stored'⟩ := stored.insert legal
    exact ⟨mem', by simp [callMemory, callLists, inserted], stored'⟩
  | delete i x =>
    obtain ⟨mem', deleted, stored'⟩ := stored.delete (x := x) (enough i)
    exact ⟨mem', by simp [callMemory, callLists, deleted], stored'⟩
  | deleteList i =>
    obtain ⟨mem', deleted, stored'⟩ := stored.deleteList (enough i)
    exact ⟨mem', by simp [callMemory, callLists, deleted], stored'⟩

omit [DecidableEq ι] in
/-- A new node makes a sequence longer by one at most. -/
theorem putBehind_length (new : Entry) (first : Position) (entries : List Entry) :
    (putBehind p new first entries).length ≤ entries.length + 1 := by
  induction entries generalizing first with
  | nil =>
    rw [putBehind]
    split
    · exact Nat.le_refl 1
    · exact Nat.zero_le 1
  | cons entry entries rest =>
    rw [putBehind]
    split
    · exact Nat.le_refl _
    · exact Nat.succ_le_succ (rest entry.1)

/-- A call makes a list longer by one at most. -/
theorem callLists_length (call : Call ι) (i : ι) :
    ((callLists header lists call).2 i).length ≤ (lists i).length + 1 := by
  have others : ∀ (k : ι) (l : List Entry), l.length ≤ (lists k).length + 1 →
      (Function.update lists k l i).length ≤ (lists i).length + 1 := by
    intro k l short
    by_cases same : i = k
    · rw [same, Function.update_self]
      exact short
    · rw [Function.update_of_ne same]
      exact Nat.le_succ _
  cases call with
  | find k x => exact Nat.le_succ _
  | findPrevious k x => exact Nat.le_succ _
  | insert k x tmp p => exact others k _ (putBehind_length (tmp, x) (header k) (lists k))
  | delete k x => exact others k _ (Nat.le_succ_of_le List.eraseP_sublist.length_le)
  | deleteList k => exact others k [] (Nat.zero_le _)

/-- In every run of legal calls on lists that share a memory, no call touches memory that is not
allocated, the positions returned are those of the sequences, and the memory holds the nodes of the
sequences and no others. -/
theorem calls_refine_lists (stored : Stored header mem lists)
    (legal : LegalRun header lists calls)
    (enough : ∀ i, (lists i).length + calls.length < fuel) :
    ∃ mem', runMemory fuel header mem calls =
        some ((runLists header lists calls).1, mem') ∧
      Stored header mem' (runLists header lists calls).2 := by
  induction calls generalizing mem lists with
  | nil => exact ⟨mem, rfl, stored⟩
  | cons call calls rest =>
    have short : ∀ i, (lists i).length < fuel := fun i =>
      Nat.lt_of_le_of_lt (Nat.le_add_right _ _) (enough i)
    obtain ⟨mem₁, called, stored₁⟩ := stored.step legal.1 short
    have enough₁ : ∀ i, ((callLists header lists call).2 i).length + calls.length < fuel := by
      intro i
      have longer : ((callLists header lists call).2 i).length ≤ (lists i).length + 1 :=
        callLists_length call i
      have bound := enough i
      rw [List.length_cons] at bound
      omega
    obtain ⟨mem', ran, stored'⟩ := rest stored₁ legal.2 enough₁
    exact ⟨mem', by simp [runMemory, called, ran, runLists], stored'⟩

/-- The headers of two empty lists. -/
def twoHeaders : Memory := fun p => if p = 1 ∨ p = 2 then some ⟨0, null⟩ else none

/-- Nodes are put into both lists, one in between; one is deleted and its address used again. -/
def twoLists : List (Call (Fin 2)) :=
  [.insert 0 7 10 1, .insert 0 8 11 10, .insert 0 9 12 10, .insert 1 5 13 2, .findPrevious 0 8,
    .delete 0 9, .insert 1 6 12 13, .find 1 6, .deleteList 0]

/-- The two lists are stored. -/
theorem twoHeaders_stored :
    Stored (fun i : Fin 2 => i.val + 1) twoHeaders fun _ => [] := by
  refine ⟨family_empty (fun i => Nat.succ_ne_zero _) ?_ ?_ ?_, fun i entry inList => by
    cases inList⟩
  · intro i j same
    exact Fin.ext (Nat.succ.inj same)
  · decide
  · intro a n isNext
    simp only [link, twoHeaders] at isNext
    split at isNext
    · rename_i header
      rcases header with rfl | rfl
      · exact ⟨0, rfl⟩
      · exact ⟨1, rfl⟩
    · cases isNext

/-- In that run the positions are those of the sequences. -/
theorem calls_refine_lists_two : ∃ mem',
    runMemory 10 (fun i : Fin 2 => i.val + 1) twoHeaders twoLists =
        some ([0, 0, 0, 0, 12, 0, 0, 12, 0], mem') ∧
      Stored (fun i : Fin 2 => i.val + 1) mem' fun i =>
        if i = 1 then [(13, 5), (12, 6)] else [] := by
  have legal : LegalRun (fun i : Fin 2 => i.val + 1) (fun _ => []) twoLists := by
    simp [LegalRun, twoLists, Legal, callLists, putBehind, null, Fin.forall_fin_two]
  have enough : ∀ _ : Fin 2, ([] : List Entry).length + twoLists.length < 10 := by decide
  obtain ⟨mem', ran, stored⟩ := calls_refine_lists twoHeaders_stored legal enough
  have ends : (runLists (fun i : Fin 2 => i.val + 1) (fun _ => []) twoLists).1 =
      [0, 0, 0, 0, 12, 0, 0, 12, 0] := by decide
  have lists : (runLists (fun i : Fin 2 => i.val + 1) (fun _ => []) twoLists).2 =
      fun i => if i = 1 then [(13, 5), (12, 6)] else [] := by
    funext i
    revert i
    decide
  rw [ends] at ran
  rw [lists] at stored
  exact ⟨mem', ran, stored⟩

end Stored

end CodeLearning.Lists
