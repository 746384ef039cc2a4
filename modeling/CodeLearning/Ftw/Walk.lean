import CodeLearning.Lib.StringBuffer

/-!
# The file tree walk

`myftw` calls a function for every file below a pathname. `dopath` does not pass the pathname to
its recursive calls: all of them work on one buffer, which a call extends by a slash and the names
of a directory one after the other, and which it may reallocate. It leaves the buffer with the
pathname that it started from at the front, so that its caller finds its own pathname there and puts
the next name behind it.
-/

namespace CodeLearning.Ftw

open StringBuffer

/-- `NAME_MAX`. -/
def nameMax : Nat := 255

/-- The kinds of files in `st_mode`. -/
inductive Kind where
  /-- `S_IFREG`. -/
  | reg
  /-- `S_IFDIR`. -/
  | dir
  /-- `S_IFBLK`. -/
  | blk
  /-- `S_IFCHR`. -/
  | chr
  /-- `S_IFIFO`. -/
  | fifo
  /-- `S_IFLNK`. -/
  | lnk
  /-- `S_IFSOCK`. -/
  | sock
  /-- Any other. -/
  | other
deriving DecidableEq

/-- The types that a callback is told. -/
inductive FtwType where
  /-- `FTW_F`. -/
  | f
  /-- `FTW_D`. -/
  | d
  /-- `FTW_DNR`. -/
  | dnr
  /-- `FTW_NS`. -/
  | ns
deriving DecidableEq

/-- A call of the callback; without `lstat` the status is not defined. -/
structure Call where
  /-- The pathname. -/
  pathname : Bytes
  /-- The status. -/
  stat : Option Kind
  /-- The type. -/
  type : FtwType
deriving DecidableEq

/-- A callback: its result and what it makes of its own state; `none` when it ends the process. -/
abbrev Callback (σ : Type) := σ → Call → Option (Int × σ)

/-- The files, as the system calls show them. -/
structure Files where
  /-- `lstat`; `none` when it fails. -/
  lstat : Bytes → Option Kind
  /-- `opendir`, with the names that `readdir` returns then; `none` when it fails. -/
  opendir : Bytes → Option (List Bytes)

/-- Why a walk does not return. -/
inductive Failure where
  /-- The callback ends the process. -/
  | exited
  /-- The buffer is left. -/
  | outside
  /-- There are more levels than were given. -/
  | deep
deriving DecidableEq

/-- `fullpath`, with `pathlen` as its length, and the state of the callback. -/
structure Walk (σ : Type) where
  /-- `fullpath`. -/
  fullpath : Bytes
  /-- The state of the callback. -/
  state : σ

section Code

variable {σ : Type} (files : Files) (memory : Nat → UInt8) (func : Callback σ)

/-- A call of `func`. -/
def callFunc (walk : Walk σ) (call : Call) : Except Failure (Int × Walk σ) :=
  match func walk.state call with
  | none => .error .exited
  | some (ret, state) => .ok (ret, { walk with state := state })

/-- An operation on the buffer. -/
def inBuffer {α : Type} : Option α → Except Failure α
  | none => .error .outside
  | some result => .ok result

/-- `"/"`. -/
def slash : UInt8 := 47

/-- `"."`. -/
def dot : Bytes := [46]

/-- `".."`. -/
def dotDot : Bytes := [46, 46]

/-- The loop of `dopath` over the names of a directory, with the recursive call. -/
def readLoop (visit : Walk σ → Except Failure (Int × Walk σ)) (n : Nat) :
    List Bytes → Int → Walk σ → Except Failure (Int × Walk σ)
  | [], ret, walk => .ok (ret, walk)
  | name :: names, ret, walk =>
    if name = dot ∨ name = dotDot then readLoop visit n names ret walk
    else do
      let fullpath ← inBuffer (strcpyAt walk.fullpath n name)
      let (ret, walk) ← visit { walk with fullpath := fullpath }
      if ret ≠ 0 then .ok (ret, walk) else readLoop visit n names ret walk

/-- The buffer of `dopath` for the names of a directory: doubled when one may not fit. -/
def widened (fullpath : Bytes) (n : Nat) : Bytes :=
  if n + nameMax + 2 > fullpath.length then realloc memory fullpath (fullpath.length * 2)
  else fullpath

/-- `dopath`, for so many levels. -/
def dopath : Nat → Walk σ → Except Failure (Int × Walk σ)
  | 0, _ => .error .deep
  | levels + 1, walk => do
    let path ← inBuffer (stringOf walk.fullpath)
    match files.lstat path with
    | none => callFunc func walk ⟨path, none, .ns⟩
    | some kind =>
      if kind ≠ .dir then callFunc func walk ⟨path, some kind, .f⟩
      else do
        let (ret, walk) ← callFunc func walk ⟨path, some kind, .d⟩
        if ret ≠ 0 then .ok (ret, walk)
        else do
          let n := path.length
          let fullpath ← inBuffer (put (widened memory walk.fullpath n) n slash)
          let fullpath ← inBuffer (put fullpath (n + 1) 0)
          let path ← inBuffer (stringOf fullpath)
          match files.opendir path with
          | none => callFunc func { walk with fullpath := fullpath } ⟨path, some kind, .dnr⟩
          | some names => do
            let (ret, walk) ← readLoop (dopath levels) (n + 1) names ret
              { walk with fullpath := fullpath }
            let fullpath ← inBuffer (put walk.fullpath n 0)
            .ok (ret, { walk with fullpath := fullpath })

/-- `path_alloc`. -/
def pathAlloc : Bytes := (List.range' 0 256).map memory

/-- `myftw`, for so many levels. -/
def myftw (levels : Nat) (pathname : Bytes) (state : σ) : Except Failure (Int × Walk σ) := do
  let fullpath := pathAlloc memory
  let fullpath := if fullpath.length ≤ pathname.length
    then realloc memory fullpath (pathname.length * 2) else fullpath
  let fullpath ← inBuffer (strcpyAt fullpath 0 pathname)
  dopath files memory func levels ⟨fullpath, state⟩

end Code

/-! ## Trees -/

mutual

/-- A file with all that is below it. -/
inductive Node where
  /-- `lstat` fails. -/
  | unstattable
  /-- No directory. -/
  | file (kind : Kind) (notDir : kind ≠ .dir)
  /-- A directory that cannot be opened. -/
  | closed
  /-- A directory. -/
  | opens (entries : Entries)

/-- The entries of a directory but `.` and `..`, in the order of `readdir`. -/
inductive Entries where
  /-- No more. -/
  | nil
  /-- A name with its file, and the others. -/
  | cons (name : Bytes) (node : Node) (rest : Entries)

end

/-- The status of a file. -/
def Node.stat : Node → Option Kind
  | .unstattable => none
  | .file kind _ => some kind
  | .closed => some .dir
  | .opens _ => some .dir

/-- The type of a file. -/
def Node.type : Node → FtwType
  | .unstattable => .ns
  | .file _ _ => .f
  | .closed => .d
  | .opens _ => .d

/-- The further call for a directory that cannot be opened, which is told the pathname with a slash
behind it. -/
def Node.furtherCalls (path : Bytes) : Node → List Call
  | .closed => [⟨path ++ [slash], some .dir, .dnr⟩]
  | _ => []

/-- The calls for one file. -/
def Node.ownCalls (path : Bytes) (node : Node) : List Call :=
  ⟨path, node.stat, node.type⟩ :: node.furtherCalls path

/-- A pathname joined by slashes with names. -/
def join (path : Bytes) (names : List Bytes) : Bytes :=
  path ++ names.flatMap fun name => slash :: name

mutual

/-- All files of a tree, each with the names on the path to it: a directory before its entries, and
these in their order. -/
def Node.preorder (names : List Bytes) : Node → List (List Bytes × Node)
  | .unstattable => [(names, .unstattable)]
  | .file kind notDir => [(names, .file kind notDir)]
  | .closed => [(names, .closed)]
  | .opens entries => (names, .opens entries) :: entries.preorder names

/-- All files below a directory. -/
def Entries.preorder (names : List Bytes) : Entries → List (List Bytes × Node)
  | .nil => []
  | .cons name node rest => node.preorder (names ++ [name]) ++ rest.preorder names

end

/-- The calls for a tree below a pathname. -/
def Node.calls (pathname : Bytes) (tree : Node) : List Call :=
  (tree.preorder []).flatMap fun file => file.2.ownCalls (join pathname file.1)

/-- Calls of a callback up to the first result that is not zero. -/
def runCalls {σ : Type} (func : Callback σ) : σ → List Call → Option (Int × σ)
  | state, [] => some (0, state)
  | state, call :: calls =>
    match func state call with
    | none => none
    | some (ret, state) => if ret ≠ 0 then some (ret, state) else runCalls func state calls

/-- The names of the entries. -/
def Entries.names : Entries → List Bytes
  | .nil => []
  | .cons name _ rest => name :: rest.names

mutual

/-- The levels of a tree. -/
def Node.levels : Node → Nat
  | .opens entries => entries.levels + 1
  | _ => 1

/-- The levels below a directory. -/
def Entries.levels : Entries → Nat
  | .nil => 0
  | .cons _ node rest => max node.levels rest.levels

end

/-- A name other than `.` and `..`. -/
def isEntry (name : Bytes) : Bool := decide (¬ (name = dot ∨ name = dotDot))

/-- A name of a directory entry. -/
structure IsName (name : Bytes) : Prop where
  /-- It is not empty. -/
  nonempty : 1 ≤ name.length
  /-- Its length is limited. -/
  short : name.length ≤ nameMax
  /-- It is a string. -/
  noNul : 0 ∉ name

mutual

/-- The files show this tree at a pathname. -/
def Shows (files : Files) (path : Bytes) : Node → Prop
  | .unstattable => files.lstat path = none
  | .file kind _ => files.lstat path = some kind
  | .closed => files.lstat path = some .dir ∧ files.opendir (path ++ [slash]) = none
  | .opens entries => files.lstat path = some .dir ∧
    (∃ names, files.opendir (path ++ [slash]) = some names ∧
      names.filter isEntry = entries.names) ∧
    ShowsAll files (path ++ [slash]) entries

/-- The files show these entries behind a pathname with its slash. -/
def ShowsAll (files : Files) (front : Bytes) : Entries → Prop
  | .nil => True
  | .cons name node rest =>
    IsName name ∧ Shows files (front ++ name) node ∧ ShowsAll files front rest

end

/-! ## What a level leaves -/

section Levels

variable {σ : Type} {func : Callback σ} {files : Files} {memory : Nat → UInt8}
  {result : Except Failure (Int × Walk σ)} {front front' : Bytes} {size size' : Nat} {state : σ}
  {calls more : List Call} {walk : Walk σ}

/-- A level of the walk ends as the calls of the callback do, with a text still at the front of the
buffer. -/
def Agrees (result : Except Failure (Int × Walk σ)) (expected : Option (Int × σ)) (front : Bytes)
    (size : Nat) : Prop :=
  match expected with
  | none => result = .error .exited
  | some (ret, state) => ∃ fullpath, result = .ok (ret, ⟨fullpath, state⟩) ∧ front <+: fullpath ∧
    size ≤ fullpath.length

/-- Calls after a call. -/
theorem runCalls_append : runCalls func state (calls ++ more) =
    (runCalls func state calls).bind fun next =>
      if next.1 ≠ 0 then some next else runCalls func next.2 more := by
  induction calls generalizing state with
  | nil => simp [runCalls]
  | cons call calls later =>
    rw [List.cons_append, runCalls, runCalls]
    cases called : func state call with
    | none => rfl
    | some next =>
      obtain ⟨ret, state'⟩ := next
      by_cases stops : ret ≠ 0
      · simp [stops]
      · simp [stops, later]

/-- A shorter buffer would do. -/
theorem Agrees.shorter {expected : Option (Int × σ)} (agrees : Agrees result expected front size)
    (smaller : size' ≤ size) : Agrees result expected front size' := by
  cases expected with
  | none => exact agrees
  | some next =>
    obtain ⟨fullpath, same, starts, long⟩ := agrees
    exact ⟨fullpath, same, starts, Nat.le_trans smaller long⟩

/-- A level that goes on when the result is zero. -/
theorem Agrees.andThen (next : Int × Walk σ → Except Failure (Int × Walk σ))
    (first : Agrees result (runCalls func state calls) front size) (keeps : front' <+: front)
    (smaller : size' ≤ size)
    (goes : ∀ walk : Walk σ, front <+: walk.fullpath → size ≤ walk.fullpath.length →
      Agrees (next (0, walk)) (runCalls func walk.state more) front' size') :
    Agrees (result >>= fun pair => if pair.1 ≠ 0 then .ok pair else next pair)
      (runCalls func state (calls ++ more)) front' size' := by
  rw [runCalls_append]
  cases ran : runCalls func state calls with
  | none =>
    rw [ran] at first
    have exits : result = .error .exited := first
    rw [exits]
    rfl
  | some pair =>
    rw [ran] at first
    obtain ⟨ret, state'⟩ := pair
    obtain ⟨fullpath, rfl, starts, long⟩ := first
    simp only [Option.bind_some]
    by_cases stops : ret ≠ 0
    · rw [if_pos stops]
      refine ⟨fullpath, ?_, keeps.trans starts, Nat.le_trans smaller long⟩
      exact if_pos stops
    · obtain rfl := not_not.mp stops
      exact goes ⟨fullpath, state'⟩ starts long

/-- One call. -/
theorem callFunc_agrees (call : Call) (starts : front <+: walk.fullpath)
    (long : size ≤ walk.fullpath.length) :
    Agrees (callFunc func walk call) (runCalls func walk.state [call]) front size := by
  rw [callFunc, runCalls]
  cases func walk.state call with
  | none => rfl
  | some next =>
    obtain ⟨ret, state'⟩ := next
    have same : (if ret ≠ 0 then some (ret, state') else runCalls func state' []) =
        some (ret, state') := by
      by_cases stops : ret ≠ 0
      · rw [if_pos stops]
      · rw [if_neg stops, runCalls, not_not.mp stops]
    simp only [same]
    exact ⟨walk.fullpath, rfl, starts, long⟩

/-- The buffer has room for a slash, a name and a NUL behind the pathname. -/
theorem widened_spec {fullpath path : Bytes} (holds : Contains fullpath path)
    (long : 256 ≤ fullpath.length) (memory : Nat → UInt8) :
    Contains (widened memory fullpath path.length) path ∧
      path.length + nameMax + 2 ≤ (widened memory fullpath path.length).length ∧
      fullpath.length ≤ (widened memory fullpath path.length).length := by
  have inside := holds.length_lt
  unfold widened
  split
  · obtain ⟨holds', length⟩ := holds.realloc memory
      (show fullpath.length ≤ fullpath.length * 2 by omega)
    refine ⟨holds', ?_, ?_⟩
    · rw [length, nameMax]
      omega
    · rw [length]
      omega
  · exact ⟨holds, by omega, Nat.le_refl _⟩

/-- What `dopath` does with a directory once the callback was told of it: the buffer holds the
pathname with a slash, and `opendir` decides. -/
def enter (files : Files) (memory : Nat → UInt8) (func : Callback σ) (levels : Nat) (n : Nat)
    (ret : Int) (walk : Walk σ) : Except Failure (Int × Walk σ) := do
  let fullpath ← inBuffer (put (widened memory walk.fullpath n) n slash)
  let fullpath ← inBuffer (put fullpath (n + 1) 0)
  let path ← inBuffer (stringOf fullpath)
  match files.opendir path with
  | none => callFunc func { walk with fullpath := fullpath } ⟨path, some .dir, .dnr⟩
  | some names => do
    let (ret, walk) ← readLoop (dopath files memory func levels) (n + 1) names ret
      { walk with fullpath := fullpath }
    let fullpath ← inBuffer (put walk.fullpath n 0)
    .ok (ret, { walk with fullpath := fullpath })

/-- `dopath` on a directory. -/
theorem dopath_dir {path : Bytes} (levels : Nat) (string : stringOf walk.fullpath = some path)
    (stat : files.lstat path = some .dir) :
    dopath files memory func (levels + 1) walk =
      (callFunc func walk ⟨path, some .dir, .d⟩ >>= fun pair =>
        if pair.1 ≠ 0 then .ok pair
        else enter files memory func levels path.length pair.1 pair.2) := by
  rw [dopath, string]
  simp only [inBuffer, stat, bind, Except.bind, ne_eq, not_true_eq_false, if_false]
  rfl

/-- What `dopath` does when it has called `opendir`. -/
def afterOpen (files : Files) (memory : Nat → UInt8) (func : Callback σ) (levels : Nat)
    (path : Bytes) (ret : Int) (walk : Walk σ) : Except Failure (Int × Walk σ) :=
  match files.opendir (path ++ [slash]) with
  | none => callFunc func walk ⟨path ++ [slash], some .dir, .dnr⟩
  | some names =>
    readLoop (dopath files memory func levels) (path ++ [slash]).length names ret walk >>=
      fun pair => inBuffer (put pair.2.fullpath path.length 0) >>= fun fullpath =>
        .ok (pair.1, { pair.2 with fullpath := fullpath })

/-- The buffer when `opendir` is called, and what follows. -/
theorem enter_eq (files : Files) (memory : Nat → UInt8) (func : Callback σ) {path : Bytes}
    (levels : Nat) (ret : Int) (holds : Contains walk.fullpath path)
    (long : 256 ≤ walk.fullpath.length) :
    ∃ fullpath, Contains fullpath (path ++ [slash]) ∧
      path.length + nameMax + 2 ≤ fullpath.length ∧ walk.fullpath.length ≤ fullpath.length ∧
      enter files memory func levels path.length ret walk =
        afterOpen files memory func levels path ret ⟨fullpath, walk.state⟩ := by
  obtain ⟨holds', room, longer⟩ := widened_spec holds long memory
  have notNul : slash ≠ 0 := by decide
  obtain ⟨first, second, put₁, put₂, string, length⟩ := holds'.push notNul (by omega)
  refine ⟨second, string, by omega, by omega, ?_⟩
  rw [enter, put₁, afterOpen]
  simp only [inBuffer, bind, Except.bind, put₂, string.stringOf_eq, List.length_append,
    List.length_singleton]

/-- A directory: the callback is told of it, and what follows finds its pathname with a slash in the
buffer. -/
theorem dopath_dir_agrees {path : Bytes} (levels : Nat) (holds : Contains walk.fullpath path)
    (long : 256 ≤ walk.fullpath.length) (stat : files.lstat path = some .dir)
    (follows : ∀ next : Walk σ, Contains next.fullpath (path ++ [slash]) →
      path.length + nameMax + 2 ≤ next.fullpath.length →
      walk.fullpath.length ≤ next.fullpath.length →
      Agrees (afterOpen files memory func levels path 0 next) (runCalls func next.state more) path
        walk.fullpath.length) :
    Agrees (dopath files memory func (levels + 1) walk)
      (runCalls func walk.state (⟨path, some .dir, .d⟩ :: more)) path walk.fullpath.length := by
  rw [dopath_dir levels holds.stringOf_eq stat]
  refine (callFunc_agrees _ holds.2 (Nat.le_refl _)).andThen
    (fun pair => enter files memory func levels path.length pair.1 pair.2) (List.prefix_append _ _)
    (Nat.le_refl _) ?_
  intro walk' starts' long'
  obtain ⟨fullpath, string, room, longer, same⟩ :=
    enter_eq files memory func levels 0 ⟨holds.1, starts'⟩ (Nat.le_trans long long')
  rw [same]
  exact follows ⟨fullpath, walk'.state⟩ string room (Nat.le_trans long' longer)

/-- The loop passes over `.` and `..`. -/
theorem readLoop_filter (visit : Walk σ → Except Failure (Int × Walk σ)) (n : Nat)
    (names : List Bytes) (ret : Int) (walk : Walk σ) :
    readLoop visit n names ret walk =
      readLoop visit n (names.filter isEntry) ret walk := by
  induction names generalizing ret walk with
  | nil => rfl
  | cons name names later =>
    by_cases dots : name = dot ∨ name = dotDot
    · have dropped : ¬ isEntry name = true := fun entry => of_decide_eq_true entry dots
      rw [readLoop, if_pos dots, List.filter_cons_of_neg dropped, later]
    · have kept : isEntry name = true := decide_eq_true dots
      rw [List.filter_cons_of_pos kept, readLoop, readLoop, if_neg dots, if_neg dots]
      simp only [later]

/-- The end of a level, which erases everything from the slash onward. -/
theorem Agrees.erase {expected : Option (Int × σ)} (agrees : Agrees result expected front size)
    (keeps : front' <+: front) (shorter : front'.length < front.length) (smaller : size' ≤ size) :
    Agrees (result >>= fun pair =>
      inBuffer (put pair.2.fullpath front'.length 0) >>= fun fullpath =>
        .ok (pair.1, { pair.2 with fullpath := fullpath })) expected front' size' := by
  cases expected with
  | none =>
    have exits : result = .error .exited := agrees
    rw [exits]
    rfl
  | some next =>
    obtain ⟨ret, state⟩ := next
    obtain ⟨fullpath, rfl, starts, long⟩ := agrees
    have inside := starts.length_le
    obtain ⟨erased, written, starts', length⟩ :=
      put_spec (c := 0) (keeps.trans starts) (Nat.lt_of_lt_of_le shorter inside)
    refine ⟨erased, ?_, starts', by omega⟩
    simp only [bind, Except.bind, written, inBuffer]

/-- The calls for the files of a list, below a pathname. -/
def callsOf (pathname : Bytes) (list : List (List Bytes × Node)) : List Call :=
  list.flatMap fun file => file.2.ownCalls (join pathname file.1)

/-- One name more. -/
theorem join_append (pathname : Bytes) (names : List Bytes) (name : Bytes) :
    join pathname (names ++ [name]) = join pathname names ++ [slash] ++ name := by
  simp [join]

mutual

/-- `dopath` on a file and all that is below it makes the calls in their order, and leaves the
pathname of the file at the front of the buffer. -/
theorem dopath_agrees (pathname : Bytes) (node : Node) (names : List Bytes) (levels : Nat)
    (walk : Walk σ) (enough : node.levels ≤ levels) (shows : Shows files (join pathname names) node)
    (holds : Contains walk.fullpath (join pathname names)) (long : 256 ≤ walk.fullpath.length) :
    Agrees (dopath files memory func levels walk)
      (runCalls func walk.state (callsOf pathname (node.preorder names))) (join pathname names)
      walk.fullpath.length := by
  have string := holds.stringOf_eq
  have starts := holds.isPrefix
  obtain ⟨levels, rfl⟩ : ∃ n, levels = n + 1 := by
    cases node <;> simp only [Node.levels] at enough <;> exact ⟨levels - 1, by omega⟩
  cases node with
  | unstattable =>
    have stat : files.lstat (join pathname names) = none := shows
    have same : dopath files memory func (levels + 1) walk =
        callFunc func walk ⟨join pathname names, none, .ns⟩ := by
      simp only [dopath, string, inBuffer, stat, bind, Except.bind]
    rw [same]
    exact callFunc_agrees _ starts (Nat.le_refl _)
  | file kind notDir =>
    have stat : files.lstat (join pathname names) = some kind := shows
    have same : dopath files memory func (levels + 1) walk =
        callFunc func walk ⟨join pathname names, some kind, .f⟩ := by
      simp only [dopath, string, inBuffer, stat, bind, Except.bind, if_pos notDir]
    rw [same]
    exact callFunc_agrees _ starts (Nat.le_refl _)
  | closed =>
    obtain ⟨stat, shut⟩ := shows
    refine dopath_dir_agrees levels holds long stat ?_
    intro next string' _ longer
    rw [afterOpen, shut]
    exact callFunc_agrees _ ((List.prefix_append _ _).trans string'.isPrefix) longer
  | opens entries =>
    obtain ⟨stat, ⟨raw, opened, filtered⟩, below⟩ := shows
    refine dopath_dir_agrees levels holds long stat ?_
    intro next string' room longer
    have fits : (join pathname names).length + nameMax + 2 ≤ next.fullpath.length := room
    have notDots : ∀ name ∈ entries.names, isEntry name = true := by
      intro name mem
      rw [← filtered] at mem
      exact (List.mem_filter.mp mem).2
    have loop := readLoop_agrees pathname entries names levels next
      (Nat.le_of_succ_le_succ enough) below notDots string'.isPrefix string'.1
      (by simp only [List.length_append, List.length_singleton]; omega) (Nat.le_trans long longer)
    rw [afterOpen, opened]
    simp only
    rw [readLoop_filter, filtered]
    exact loop.erase (List.prefix_append _ _) (by simp) longer

/-- The loop over the entries of a directory. -/
theorem readLoop_agrees (pathname : Bytes) (entries : Entries) (names : List Bytes) (levels : Nat)
    (walk : Walk σ) (enough : entries.levels ≤ levels)
    (shows : ShowsAll files (join pathname names ++ [slash]) entries)
    (notDots : ∀ name ∈ entries.names, isEntry name = true)
    (starts : join pathname names ++ [slash] <+: walk.fullpath)
    (noNul : 0 ∉ join pathname names ++ [slash])
    (room : (join pathname names ++ [slash]).length + nameMax + 1 ≤ walk.fullpath.length)
    (long : 256 ≤ walk.fullpath.length) :
    Agrees (readLoop (dopath files memory func levels) (join pathname names ++ [slash]).length
        entries.names 0 walk)
      (runCalls func walk.state (callsOf pathname (entries.preorder names)))
      (join pathname names ++ [slash]) walk.fullpath.length := by
  cases entries with
  | nil => exact ⟨walk.fullpath, rfl, starts, Nat.le_refl _⟩
  | cons name node rest =>
    obtain ⟨isName, showsNode, showsRest⟩ := shows
    have dots : ¬ (name = dot ∨ name = dotDot) :=
      of_decide_eq_true (notDots name List.mem_cons_self)
    have short := isName.short
    obtain ⟨fullpath, copied, holds, length⟩ := strcpyAt_spec starts noNul isName.noNul (by omega)
    rw [← join_append] at holds showsNode
    have first := dopath_agrees pathname node (names ++ [name]) levels ⟨fullpath, walk.state⟩
      (Nat.le_trans (Nat.le_max_left _ _) enough) showsNode holds (by simp only; omega)
    have split : callsOf pathname ((Entries.cons name node rest).preorder names) =
        callsOf pathname (node.preorder (names ++ [name])) ++
          callsOf pathname (rest.preorder names) := by
      rw [Entries.preorder, callsOf, List.flatMap_append]
      rfl
    rw [Entries.names, readLoop, if_neg dots, copied, split]
    have keeps : join pathname names ++ [slash] <+: join pathname (names ++ [name]) := by
      rw [join_append]
      exact List.prefix_append _ _
    refine first.andThen (fun pair => readLoop (dopath files memory func levels)
      (join pathname names ++ [slash]).length rest.names pair.1 pair.2) keeps
      (Nat.le_of_eq length.symm) ?_
    intro walk' starts' long'
    have bound : walk.fullpath.length ≤ walk'.fullpath.length := by
      simp only at long'
      omega
    have later := readLoop_agrees pathname rest names levels walk'
      (Nat.le_trans (Nat.le_max_right _ _) enough) showsRest
      (fun other mem => notDots other (List.mem_cons_of_mem _ mem)) (keeps.trans starts') noNul
      (by omega) (by omega)
    exact later.shorter bound

end

end Levels

/-! ## Whole walks -/

/-- A pathname with no names behind it. -/
@[simp] theorem join_nil (pathname : Bytes) : join pathname [] = pathname := by
  simp [join]

/-- The buffer of `myftw` holds the pathname. -/
theorem myftw_buffer {σ : Type} (files : Files) (memory : Nat → UInt8) (func : Callback σ)
    (levels : Nat) {pathname : Bytes} (noNul : 0 ∉ pathname) (state : σ) :
    ∃ fullpath, Contains fullpath pathname ∧ 256 ≤ fullpath.length ∧
      myftw files memory func levels pathname state =
        dopath files memory func levels ⟨fullpath, state⟩ := by
  have length : (pathAlloc memory).length = 256 := by simp [pathAlloc]
  obtain ⟨buffer, chosen, long, room⟩ : ∃ buffer : Bytes,
      (if (pathAlloc memory).length ≤ pathname.length
        then realloc memory (pathAlloc memory) (pathname.length * 2) else pathAlloc memory) =
        buffer ∧ 256 ≤ buffer.length ∧ pathname.length + 1 ≤ buffer.length := by
    refine ⟨_, rfl, ?_⟩
    split
    · rw [realloc, List.length_take, List.length_append, List.length_map, List.length_range']
      omega
    · omega
  obtain ⟨fullpath, copied, holds, length'⟩ :=
    strcpyAt_spec (List.nil_prefix (l := buffer)) List.not_mem_nil noNul (by simpa using room)
  refine ⟨fullpath, holds, by omega, ?_⟩
  rw [List.length_nil] at copied
  simp only [myftw, chosen, copied, inBuffer, bind, Except.bind]

/-- A walk ends as the calls for its tree do. -/
theorem myftw_ends {σ : Type} (files : Files) (memory : Nat → UInt8) (func : Callback σ)
    (state : σ) {pathname : Bytes} (noNul : 0 ∉ pathname) {tree : Node}
    (shows : Shows files pathname tree) {levels : Nat} (enough : tree.levels ≤ levels) :
    match runCalls func state (tree.calls pathname) with
    | none => myftw files memory func levels pathname state = .error .exited
    | some (ret, last) =>
      ∃ fullpath, myftw files memory func levels pathname state = .ok (ret, ⟨fullpath, last⟩) := by
  obtain ⟨fullpath, holds, long, same⟩ := myftw_buffer files memory func levels noNul state
  have agrees : Agrees (dopath files memory func levels ⟨fullpath, state⟩)
      (runCalls func state (tree.calls pathname)) (join pathname []) fullpath.length :=
    dopath_agrees pathname tree [] levels ⟨fullpath, state⟩ enough (by simpa using shows)
      (by simpa using holds) long
  rw [same]
  cases ran : runCalls func state (tree.calls pathname) with
  | none =>
    rw [ran] at agrees
    exact agrees
  | some next =>
    rw [ran] at agrees
    obtain ⟨fullpath', result, -, -⟩ := agrees
    exact ⟨fullpath', result⟩

/-- `myftw` calls the function for the files of the tree at a pathname, a directory before its
entries and these as `readdir` returns them, each with its pathname and its type, and once more for
a directory that cannot be opened. It stops at the first result that is not zero and returns it. -/
theorem myftw_calls {σ : Type} (files : Files) (memory : Nat → UInt8) (func : Callback σ)
    (state : σ) (pathname : Bytes) (noNul : 0 ∉ pathname) (tree : Node)
    (shows : Shows files pathname tree) (levels : Nat) (enough : tree.levels ≤ levels) :
    match runCalls func state (tree.calls pathname) with
    | none => myftw files memory func levels pathname state = .error .exited
    | some (ret, last) =>
      ∃ fullpath, myftw files memory func levels pathname state = .ok (ret, ⟨fullpath, last⟩) :=
  myftw_ends files memory func state noNul shows enough

/-- Four files: a directory with a file, a directory that cannot be opened, and one more. -/
def fourFiles : Files where
  lstat path :=
    if path = [97] ∨ path = [97, 47, 99] then some .dir
    else if path = [97, 47, 98] then some .reg else none
  opendir path := if path = [97, 47] then some [[46], [98], [46, 46], [99], [100]] else none

/-- The tree of these files. -/
def fourNodes : Node :=
  .opens (.cons [98] (.file .reg (by decide)) (.cons [99] .closed (.cons [100] .unstattable .nil)))

/-- A walk that stops at the directory that cannot be opened. -/
theorem myftw_calls_four : ∃ fullpath, myftw fourFiles (fun _ => 1)
    (fun calls call => some (if call.type = .dnr then 7 else 0, calls ++ [call])) 2 [97] [] =
      .ok (7, ⟨fullpath, [⟨[97], some .dir, .d⟩, ⟨[97, 47, 98], some .reg, .f⟩,
        ⟨[97, 47, 99], some .dir, .d⟩, ⟨[97, 47, 99, 47], some .dir, .dnr⟩]⟩) :=
  myftw_calls fourFiles (fun _ => 1)
    (fun calls call => some (if call.type = .dnr then 7 else 0, calls ++ [call])) [] [97]
    (by decide) fourNodes
    ⟨rfl, ⟨_, rfl, rfl⟩, ⟨by decide, by decide, by decide⟩, rfl, ⟨by decide, by decide, by decide⟩,
      ⟨rfl, rfl⟩, ⟨by decide, by decide, by decide⟩, rfl, trivial⟩
    2 (by decide)

end CodeLearning.Ftw
