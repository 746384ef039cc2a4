import Mathlib.Data.List.Forall2
import CodeLearning.Ftw.Walk

/-!
# The statistics of a file tree walk

`myfunc` counts the files of each kind. Its case for directories has no `break`, so that every
directory it counts is also reported as one that cannot be read.
-/

namespace CodeLearning.Ftw

open StringBuffer

/-- What `err_ret` prints. -/
inductive Report where
  /-- `"can't read directory %s"`. -/
  | cantRead (pathname : Bytes)
  /-- `"stat error for %s"`. -/
  | statError (pathname : Bytes)
deriving DecidableEq

/-- The counters, which are static and start at zero, and what was printed. -/
structure Stats where
  /-- Regular files. -/
  nreg : Nat := 0
  /-- Directories. -/
  ndir : Nat := 0
  /-- Block special files. -/
  nblk : Nat := 0
  /-- Character special files. -/
  nchr : Nat := 0
  /-- FIFOs. -/
  nfifo : Nat := 0
  /-- Symbolic links. -/
  nslink : Nat := 0
  /-- Sockets. -/
  nsock : Nat := 0
  /-- The reports. -/
  reports : List Report := []
deriving DecidableEq

/-- `err_ret`. -/
def Stats.errRet (stats : Stats) (report : Report) : Stats :=
  { stats with reports := stats.reports ++ [report] }

/-- The inner `switch` of `myfunc`; `err_dump` does not return, and a status that was not filled
has no mode. -/
def countFile (stats : Stats) : Option Kind → Option Stats
  | some .reg => some { stats with nreg := stats.nreg + 1 }
  | some .blk => some { stats with nblk := stats.nblk + 1 }
  | some .chr => some { stats with nchr := stats.nchr + 1 }
  | some .fifo => some { stats with nfifo := stats.nfifo + 1 }
  | some .lnk => some { stats with nslink := stats.nslink + 1 }
  | some .sock => some { stats with nsock := stats.nsock + 1 }
  | some .dir => none
  | some .other => some stats
  | none => none

/-- `ndir++`. -/
def Stats.countDir (stats : Stats) : Stats := { stats with ndir := stats.ndir + 1 }

/-- `myfunc`. -/
def myfunc : Callback Stats := fun stats call =>
  match call.type with
  | .f => (countFile stats call.stat).map fun stats => (0, stats)
  -- Without a `break` this case goes on with the next one.
  | .d => some (0, stats.countDir.errRet (.cantRead call.pathname))
  | .dnr => some (0, stats.errRet (.cantRead call.pathname))
  | .ns => some (0, stats.errRet (.statError call.pathname))

/-- The counter of a kind; the source has none for the others. -/
def Stats.counter (stats : Stats) : Kind → Nat
  | .reg => stats.nreg
  | .dir => stats.ndir
  | .blk => stats.nblk
  | .chr => stats.nchr
  | .fifo => stats.nfifo
  | .lnk => stats.nslink
  | .sock => stats.nsock
  | .other => 0

/-- The pathname of a report of a directory that cannot be read. -/
def Report.unread : Report → Option Bytes
  | .cantRead pathname => some pathname
  | .statError _ => none

/-- The directories that were reported. -/
def Stats.unread (stats : Stats) : List Bytes := stats.reports.filterMap Report.unread

/-! ## What the counters are to be -/

/-- How many files of a list are of a kind. -/
def countKind (kind : Kind) (files : List (List Bytes × Node)) : Nat :=
  files.countP fun file => file.2.stat = some kind

/-- A directory that cannot be opened. -/
def Node.isClosed : Node → Bool
  | .closed => true
  | _ => false

/-- A directory. -/
def Node.isDir : Node → Bool
  | .closed | .opens _ => true
  | _ => false

/-- The pathnames of the directories that cannot be opened. -/
def closedPaths (pathname : Bytes) (files : List (List Bytes × Node)) : List Bytes :=
  (files.filter fun file => file.2.isClosed).map fun file => join pathname file.1

/-- A pathname names a directory, with a slash behind it or without. -/
def NamesDir (reported path : Bytes) : Prop := reported = path ∨ reported = path ++ [slash]

/-- The counters are right, and the reports name every directory that cannot be opened once and
nothing else. -/
def Stats.Describes (stats : Stats) (pathname : Bytes) (tree : Node) : Prop :=
  (∀ kind, kind ≠ .other → stats.counter kind = countKind kind (tree.preorder [])) ∧
    List.Forall₂ NamesDir stats.unread (closedPaths pathname (tree.preorder []))

/-! ## What the counters are -/

/-- A report changes no counter. -/
@[simp] theorem Stats.counter_errRet (stats : Stats) (report : Report) (kind : Kind) :
    (stats.errRet report).counter kind = stats.counter kind := by
  cases kind <;> rfl

/-- A directory is counted. -/
@[simp] theorem Stats.counter_countDir (stats : Stats) (kind : Kind) :
    stats.countDir.counter kind = stats.counter kind + if .dir = kind then 1 else 0 := by
  cases kind <;> rfl

/-- Nothing is printed for it. -/
@[simp] theorem Stats.unread_countDir (stats : Stats) : stats.countDir.unread = stats.unread := rfl

/-- A report is added. -/
@[simp] theorem Stats.unread_errRet (stats : Stats) (report : Report) :
    (stats.errRet report).unread = stats.unread ++ report.unread.toList := by
  cases report <;> simp [Stats.unread, Stats.errRet, Report.unread]

/-- The directories that the calls for a file report. -/
def Node.unread (path : Bytes) : Node → List Bytes
  | .closed => [path, path ++ [slash]]
  | .opens _ => [path]
  | _ => []

/-- The calls for one file count it once, and report every directory. -/
theorem myfunc_ownCalls (stats : Stats) (path : Bytes) (node : Node) :
    ∃ stats', runCalls myfunc stats (node.ownCalls path) = some (0, stats') ∧
      (∀ kind, kind ≠ .other → stats'.counter kind =
        stats.counter kind + if node.stat = some kind then 1 else 0) ∧
      stats'.unread = stats.unread ++ node.unread path := by
  cases node with
  | unstattable =>
    refine ⟨stats.errRet (.statError path), rfl, ?_, ?_⟩
    · intro kind _
      simp [Node.stat]
    · simp [Report.unread, Node.unread]
  | file kind notDir =>
    have counted : ∃ stats', countFile stats (some kind) = some stats' ∧
        (∀ kind', kind' ≠ .other → stats'.counter kind' =
          stats.counter kind' + if some kind = some kind' then 1 else 0) ∧
        stats'.reports = stats.reports := by
      cases kind
      case dir => exact absurd rfl notDir
      all_goals
        refine ⟨_, rfl, ?_, rfl⟩
        intro kind' known
        cases kind' <;> first | rfl | exact absurd rfl known
    obtain ⟨stats', same, counters, reports⟩ := counted
    refine ⟨stats', ?_, counters, ?_⟩
    · simp [Node.ownCalls, Node.furtherCalls, Node.type, Node.stat, runCalls, myfunc, same]
    · simp [Stats.unread, reports, Node.unread]
  | closed =>
    refine ⟨(stats.countDir.errRet (.cantRead path)).errRet (.cantRead (path ++ [slash])), rfl, ?_,
      ?_⟩
    · intro kind _
      simp [Node.stat]
    · simp [Report.unread, Node.unread]
  | opens entries =>
    refine ⟨stats.countDir.errRet (.cantRead path), rfl, ?_, ?_⟩
    · intro kind _
      simp [Node.stat]
    · simp [Report.unread, Node.unread]

/-- The calls for a list of files. -/
theorem myfunc_callsOf (pathname : Bytes) (files : List (List Bytes × Node)) (stats : Stats) :
    ∃ stats', runCalls myfunc stats (callsOf pathname files) = some (0, stats') ∧
      (∀ kind, kind ≠ .other →
        stats'.counter kind = stats.counter kind + countKind kind files) ∧
      stats'.unread =
        stats.unread ++ files.flatMap fun file => file.2.unread (join pathname file.1) := by
  induction files generalizing stats with
  | nil => exact ⟨stats, rfl, fun _ _ => rfl, by simp⟩
  | cons file files later =>
    obtain ⟨middle, first, counters, unread⟩ :=
      myfunc_ownCalls stats (join pathname file.1) file.2
    obtain ⟨last, rest, counters', unread'⟩ := later middle
    refine ⟨last, ?_, ?_, ?_⟩
    · rw [callsOf, List.flatMap_cons, runCalls_append, first]
      exact rest
    · intro kind known
      rw [counters' kind known, counters kind known, countKind, countKind, List.countP_cons]
      simp only [decide_eq_true_eq]
      omega
    · rw [unread', unread, List.flatMap_cons, List.append_assoc]

/-- Every directory is reported, and every closed one is reported once more. -/
theorem length_unread (pathname : Bytes) (files : List (List Bytes × Node)) :
    (files.flatMap fun file => file.2.unread (join pathname file.1)).length =
      (closedPaths pathname files).length + files.countP fun file => file.2.isDir := by
  induction files with
  | nil => rfl
  | cons file files later =>
    obtain ⟨names, node⟩ := file
    rw [List.flatMap_cons, List.length_append, later, List.countP_cons, closedPaths, closedPaths,
      List.filter_cons]
    cases node <;> simp [Node.unread, Node.isClosed, Node.isDir] <;> omega

/-- The first file of a tree is its root. -/
theorem Node.mem_preorder (names : List Bytes) (tree : Node) :
    (names, tree) ∈ tree.preorder names := by
  cases tree <;> simp [Node.preorder]

/-- A tree that is not a directory is one file. -/
theorem Node.preorder_of_not_isDir {tree : Node} (notDir : tree.isDir = false)
    (names : List Bytes) : tree.preorder names = [(names, tree)] := by
  cases tree with
  | unstattable => rfl
  | file kind proof => rfl
  | closed => cases notDir
  | opens entries => cases notDir

/-- A walk from a pathname that is not a directory is described as it should be; a walk from a
directory reports that one although it was opened, or reports it twice. -/
theorem myftw_statistics_iff (files : Files) (memory : Nat → UInt8) (pathname : Bytes)
    (noNul : 0 ∉ pathname) (tree : Node) (shows : Shows files pathname tree) (levels : Nat)
    (enough : tree.levels ≤ levels) :
    (∃ fullpath stats, myftw files memory myfunc levels pathname {} = .ok (0, ⟨fullpath, stats⟩) ∧
      stats.Describes pathname tree) ↔ tree.isDir = false := by
  obtain ⟨last, ran, counters, unread⟩ := myfunc_callsOf pathname (tree.preorder []) {}
  have walked := myftw_ends files memory myfunc {} noNul shows enough
  rw [show tree.calls pathname = callsOf pathname (tree.preorder []) from rfl, ran] at walked
  obtain ⟨fullpath, walked⟩ := walked
  have reported : last.unread = (tree.preorder []).flatMap fun file =>
      file.2.unread (join pathname file.1) := unread
  constructor
  · rintro ⟨fullpath', stats, walked', -, named⟩
    rw [walked] at walked'
    obtain rfl : last = stats := by
      injection walked' with pair
      exact congrArg (fun pair => pair.2.state) pair
    have lengths := named.length_eq
    rw [reported, length_unread] at lengths
    have none : (tree.preorder []).countP (fun file => file.2.isDir) = 0 := by omega
    have root := List.countP_eq_zero.mp none _ (tree.mem_preorder [])
    exact Bool.eq_false_iff.mpr root
  · intro notDir
    refine ⟨fullpath, last, walked, ?_, ?_⟩
    · intro kind known
      rw [counters kind known]
      cases kind <;> exact Nat.zero_add _
    · rw [reported, Node.preorder_of_not_isDir notDir]
      cases tree with
      | unstattable => exact .nil
      | file kind proof => exact .nil
      | closed => cases notDir
      | opens entries => cases notDir

/-- A directory with no entries. -/
def emptyDir : Files where
  lstat path := if path = [97] then some .dir else none
  opendir path := if path = [97, 47] then some [[46], [46, 46]] else none

/-- A directory that was opened is reported as one that cannot be read. -/
theorem myftw_reports_emptyDir : Shows emptyDir [97] (.opens .nil) ∧
    ∃ fullpath stats, myftw emptyDir (fun _ => 1) myfunc 1 [97] {} = .ok (0, ⟨fullpath, stats⟩) ∧
      stats.unread = [[97]] ∧ ¬ stats.Describes [97] (.opens .nil) := by
  have shows : Shows emptyDir [97] (.opens .nil) := ⟨rfl, ⟨_, rfl, rfl⟩, trivial⟩
  obtain ⟨fullpath, walked⟩ :=
    myftw_ends emptyDir (fun _ => 1) myfunc {} (by decide) shows (Nat.le_refl 1)
  refine ⟨shows, fullpath, _, walked, rfl, ?_⟩
  rintro ⟨-, named⟩
  exact nomatch named.length_eq

/-- A regular file. -/
def oneFile : Files where
  lstat path := if path = [98] then some .reg else none
  opendir _ := none

/-- A walk from a regular file. -/
theorem myftw_statistics_oneFile : ∃ fullpath stats,
    myftw oneFile (fun _ => 1) myfunc 1 [98] {} = .ok (0, ⟨fullpath, stats⟩) ∧
      stats.Describes [98] (.file .reg Kind.noConfusion) :=
  (myftw_statistics_iff oneFile (fun _ => 1) [98] (by decide) (.file .reg Kind.noConfusion) rfl 1
    (Nat.le_refl 1)).mpr rfl

end CodeLearning.Ftw
