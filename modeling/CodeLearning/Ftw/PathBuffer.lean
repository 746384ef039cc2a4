import CodeLearning.Ftw.Walk

/-!
# The buffer of the tree walk

`dopath` doubles the buffer at most once before it puts a slash and the names of a directory behind
the pathname. Once is enough: the buffer never has fewer than 256 bytes, and the pathname with its
NUL is inside of it, so that the doubled buffer has 256 bytes more than the pathname needs, at any
depth.
-/

namespace CodeLearning.Ftw

open StringBuffer

variable {σ : Type} {func : Callback σ} {files : Files} {memory : Nat → UInt8}
  {result : Except Failure (Int × Walk σ)} {front front' : Bytes} {size size' : Nat}
  {walk : Walk σ}

/-- The names that `readdir` returns are strings of limited length. -/
def NamesFit (files : Files) : Prop :=
  ∀ path names, files.opendir path = some names → ∀ name ∈ names,
    name.length ≤ nameMax ∧ 0 ∉ name

/-- A level of the walk stays inside of the buffer, and leaves a text at the front of it. -/
def Keeps (result : Except Failure (Int × Walk σ)) (front : Bytes) (size : Nat) : Prop :=
  match result with
  | .error failure => failure ≠ .outside
  | .ok (_, walk) => front <+: walk.fullpath ∧ size ≤ walk.fullpath.length

/-- Less is kept, too. -/
theorem Keeps.weaken (keeps : Keeps result front size) (shorter : front' <+: front)
    (smaller : size' ≤ size) : Keeps result front' size' := by
  cases result with
  | error failure => exact keeps
  | ok pair => exact ⟨shorter.trans keeps.1, Nat.le_trans smaller keeps.2⟩

/-- What follows a level. -/
theorem Keeps.andThen {next : Int × Walk σ → Except Failure (Int × Walk σ)}
    (first : Keeps result front size)
    (goes : ∀ ret (walk : Walk σ), front <+: walk.fullpath → size ≤ walk.fullpath.length →
      Keeps (next (ret, walk)) front' size') : Keeps (result >>= next) front' size' := by
  cases result with
  | error failure => exact first
  | ok pair => exact goes pair.1 pair.2 first.1 first.2

/-- A call of the callback writes nothing to the buffer. -/
theorem callFunc_keeps (call : Call) (starts : front <+: walk.fullpath)
    (long : size ≤ walk.fullpath.length) : Keeps (callFunc func walk call) front size := by
  rw [callFunc]
  cases func walk.state call with
  | none =>
    intro outside
    cases outside
  | some next => exact ⟨starts, long⟩

/-- The loop over names, when the recursive calls stay inside of the buffer. -/
theorem readLoop_keeps {visit : Walk σ → Except Failure (Int × Walk σ)} {names : List Bytes}
    (visits : ∀ walk path, Contains walk.fullpath path → 256 ≤ walk.fullpath.length →
      Keeps (visit walk) path walk.fullpath.length)
    (fit : ∀ name ∈ names, name.length ≤ nameMax ∧ 0 ∉ name) (noNul : 0 ∉ front) (ret : Int)
    (starts : front <+: walk.fullpath)
    (room : front.length + nameMax + 1 ≤ walk.fullpath.length)
    (long : 256 ≤ walk.fullpath.length) :
    Keeps (readLoop visit front.length names ret walk) front walk.fullpath.length := by
  induction names generalizing ret walk with
  | nil => exact ⟨starts, Nat.le_refl _⟩
  | cons name names later =>
    have fitLater : ∀ other ∈ names, other.length ≤ nameMax ∧ 0 ∉ other :=
      fun other mem => fit other (List.mem_cons_of_mem _ mem)
    rw [readLoop]
    by_cases dots : name = dot ∨ name = dotDot
    · rw [if_pos dots]
      exact later fitLater ret starts room long
    · obtain ⟨short, noNul'⟩ := fit name List.mem_cons_self
      obtain ⟨fullpath, copied, holds, length⟩ := strcpyAt_spec starts noNul noNul' (by omega)
      rw [if_neg dots, copied]
      have visited : Keeps (visit ⟨fullpath, walk.state⟩) (front ++ name) fullpath.length :=
        visits ⟨fullpath, walk.state⟩ (front ++ name) holds (by simp only; omega)
      refine visited.andThen ?_
      intro ret' walk' starts' long'
      have kept : front <+: walk'.fullpath := (List.prefix_append _ _).trans starts'
      show Keeps (if ret' ≠ 0 then .ok (ret', walk')
        else readLoop visit front.length names ret' walk') _ _
      by_cases stops : ret' ≠ 0
      · rw [if_pos stops]
        exact ⟨kept, by omega⟩
      · rw [if_neg stops]
        exact (later fitLater ret' kept (by omega) (by omega)).weaken (List.prefix_refl _)
          (by omega)

/-- A directory that was opened, or not. -/
theorem afterOpen_keeps {levels : Nat} {path : Bytes} (fit : NamesFit files)
    (visits : ∀ walk path, Contains walk.fullpath path → 256 ≤ walk.fullpath.length →
      Keeps (dopath files memory func levels walk) path walk.fullpath.length) (ret : Int)
    (holds : Contains walk.fullpath (path ++ [slash]))
    (room : path.length + nameMax + 2 ≤ walk.fullpath.length)
    (long : 256 ≤ walk.fullpath.length) :
    Keeps (afterOpen files memory func levels path ret walk) path walk.fullpath.length := by
  have start : path <+: path ++ [slash] := List.prefix_append _ _
  rw [afterOpen]
  cases opened : files.opendir (path ++ [slash]) with
  | none => exact callFunc_keeps _ (start.trans holds.isPrefix) (Nat.le_refl _)
  | some names =>
    have loop := readLoop_keeps visits (fit _ _ opened) holds.1 ret holds.isPrefix
      (by rw [List.length_append, List.length_singleton]; omega) long
    refine loop.andThen ?_
    intro ret' walk' starts' long'
    obtain ⟨erased, written, kept, length⟩ :=
      put_spec (c := 0) (start.trans starts') (by omega)
    simp only [written, inBuffer]
    exact ⟨kept, by simp only; omega⟩

/-- `dopath` stays inside of the buffer, for any number of levels. -/
theorem dopath_keeps (fit : NamesFit files) (levels : Nat) (walk : Walk σ) (path : Bytes)
    (holds : Contains walk.fullpath path) (long : 256 ≤ walk.fullpath.length) :
    Keeps (dopath files memory func levels walk) path walk.fullpath.length := by
  induction levels generalizing walk path with
  | zero =>
    intro outside
    cases outside
  | succ levels below =>
    cases stat : files.lstat path with
    | none =>
      have same : dopath files memory func (levels + 1) walk =
          callFunc func walk ⟨path, none, .ns⟩ := by
        simp only [dopath, holds.stringOf_eq, inBuffer, stat, bind, Except.bind]
      rw [same]
      exact callFunc_keeps _ holds.isPrefix (Nat.le_refl _)
    | some kind =>
      by_cases notDir : kind ≠ .dir
      · have same : dopath files memory func (levels + 1) walk =
            callFunc func walk ⟨path, some kind, .f⟩ := by
          simp only [dopath, holds.stringOf_eq, inBuffer, stat, bind, Except.bind, if_pos notDir]
        rw [same]
        exact callFunc_keeps _ holds.isPrefix (Nat.le_refl _)
      · rw [not_not.mp notDir] at stat
        rw [dopath_dir levels holds.stringOf_eq stat]
        have told : Keeps (callFunc func walk ⟨path, some .dir, .d⟩) (path ++ [0])
            walk.fullpath.length := callFunc_keeps _ holds.2 (Nat.le_refl _)
        refine told.andThen ?_
        intro ret walk' starts' long'
        show Keeps (if ret ≠ 0 then .ok (ret, walk')
          else enter files memory func levels path.length ret walk') _ _
        by_cases stops : ret ≠ 0
        · rw [if_pos stops]
          exact ⟨(List.prefix_append _ _).trans starts', long'⟩
        · obtain ⟨fullpath, string, room, longer, same⟩ :=
            enter_eq files memory func levels ret ⟨holds.1, starts'⟩ (by omega)
          rw [if_neg stops, same]
          exact (afterOpen_keeps fit below ret string room (by simp only; omega)).weaken
            (List.prefix_refl _) (by simp only; omega)

/-- For all files with names of at most `NAME_MAX` bytes, every pathname, every callback and any
depth: whatever `myftw` and `dopath` write to `fullpath` is inside of the bytes that are allocated
then. -/
theorem path_buffer_suffices (files : Files) (fit : NamesFit files) (memory : Nat → UInt8)
    (func : Callback σ) (levels : Nat) (pathname : Bytes) (noNul : 0 ∉ pathname) (state : σ) :
    myftw files memory func levels pathname state ≠ .error .outside := by
  obtain ⟨fullpath, holds, long, same⟩ := myftw_buffer files memory func levels noNul state
  have keeps : Keeps (dopath files memory func levels ⟨fullpath, state⟩) pathname fullpath.length :=
    dopath_keeps fit levels ⟨fullpath, state⟩ pathname holds long
  rw [same]
  intro outside
  rw [outside] at keeps
  exact keeps rfl

/-- The names of the four files are short. -/
theorem namesFit_fourFiles : NamesFit fourFiles := by
  intro path names opened
  simp only [fourFiles, Option.ite_none_right_eq_some, Option.some.injEq] at opened
  rw [← opened.2]
  decide

/-- The walk of the four files with a callback that goes on to the end. -/
theorem path_buffer_suffices_four : NamesFit fourFiles ∧
    myftw fourFiles (fun _ => 1) (fun calls _ => some (0, calls + 1)) 2 [97] 0 ≠
      .error .outside :=
  ⟨namesFit_fourFiles, path_buffer_suffices fourFiles namesFit_fourFiles (fun _ => 1)
    (fun calls _ => some (0, calls + 1)) 2 [97] (by decide) 0⟩

end CodeLearning.Ftw
