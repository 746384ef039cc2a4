import Mathlib.Data.List.Nodup
import CodeLearning.Lib.ByteFile

/-!
# The child table of popen and pclose

`childpid` has an entry for each descriptor below `maxfd`, and the entry of a stream that `popen`
returned is the child's process id until `pclose`. The functions refuse descriptors outside of the
table, but two of their three comparisons let `maxfd` itself pass, and none stops a negative one.

`dup2` in the child names an array that does not exist; it is read as `pfd`.
-/

namespace CodeLearning.Popen

/-- A stream, with the descriptor that `fileno` gives; a stream in memory has `-1`. -/
structure Stream where
  /-- Where the structure is. -/
  address : Nat
  /-- `fileno`. -/
  fileno : Int
deriving DecidableEq

/-- `errno`. -/
inductive Errno where
  /-- `EINVAL`. -/
  | einval
  /-- `EMFILE`. -/
  | emfile
  /-- `ENOMEM`. -/
  | enomem
  /-- What another call left there. -/
  | other (number : Nat)
deriving DecidableEq

/-- The static variables. -/
structure Table where
  /-- `childpid`; `none` when it is `NULL`. -/
  childpid : Option (List Int) := none
  /-- `maxfd`. -/
  maxfd : Nat := 0
deriving DecidableEq

/-- What a call of `popen` is answered by the system. -/
structure PopenAnswers where
  /-- Whether `calloc` has the memory. -/
  calloc : Bool
  /-- The descriptors of `pipe`. -/
  pipe : Except Errno (Nat × Nat)
  /-- The process id of the child that `fork` makes. -/
  fork : Except Errno Nat
  /-- Where `fdopen` puts the stream. -/
  fdopen : Except Errno Nat

/-- What a call of `pclose` is answered by the system. -/
structure PcloseAnswers where
  /-- Why `fclose` fails, if it does. -/
  fclose : Option Errno
  /-- The first answer of `waitpid` but `EINTR`. -/
  waitpid : Except Errno Int

/-! ## The functions

An access outside of the table has no defined effect: the functions are `none` then. -/

/-- `childpid[i]`. -/
def load (childpid : List Int) (i : Int) : Option Int :=
  if 0 ≤ i then childpid[i.toNat]? else none

/-- `childpid[i] = pid`. -/
def store (childpid : List Int) (i : Int) (pid : Int) : Option (List Int) :=
  if 0 ≤ i ∧ i.toNat < childpid.length then some (childpid.set i.toNat pid) else none

/-- The loop of the child over the table, with the descriptors that it closes. -/
def closeAll (childpid : List Int) : List Nat → Option (List Nat)
  | [] => some []
  | i :: rest => do
    let pid ← load childpid i
    let closed ← closeAll childpid rest
    some (if pid > 0 then i :: closed else closed)

/-- `'r'`. -/
def letterR : UInt8 := 114

/-- `'w'`. -/
def letterW : UInt8 := 119

/-- The test of `popen` on its type. -/
def badType (type : Bytes) : Prop :=
  (type.getD 0 0 ≠ letterR ∧ type.getD 0 0 ≠ letterW) ∨ type.getD 1 0 ≠ 0

instance (type : Bytes) : Decidable (badType type) :=
  inferInstanceAs (Decidable (_ ∨ _))

/-- The table of the first call of `popen`. -/
def allocate (openMax : Nat) (table : Table) (calloc : Bool) : Table :=
  match table.childpid with
  | some _ => table
  | none => ⟨if calloc then some (List.replicate openMax 0) else none, openMax⟩

/-- The descriptor that `popen` gives to `fdopen`. -/
def endOf (type : Bytes) (pfd : Nat × Nat) : Nat :=
  if type.getD 0 0 = letterR then pfd.1 else pfd.2

/-- `popen` from `fork` on. -/
def launch (table : Table) (childpid : List Int) (fd : Nat) (answers : PopenAnswers) :
    Option (Table × Except Errno Stream) :=
  match answers.fork with
  | .error errno => some (table, .error errno)
  | .ok pid => do
    let _ ← closeAll childpid (List.range table.maxfd)
    match answers.fdopen with
    | .error errno => some (table, .error errno)
    | .ok address =>
      let fp : Stream := ⟨address, fd⟩
      let childpid ← store childpid fp.fileno pid
      some ({ table with childpid := some childpid }, .ok fp)

/-- `popen` from `pipe` on. -/
def connect (table : Table) (childpid : List Int) (type : Bytes) (answers : PopenAnswers) :
    Option (Table × Except Errno Stream) :=
  match answers.pipe with
  | .error errno => some (table, .error errno)
  | .ok pfd =>
    if pfd.1 ≥ table.maxfd ∨ pfd.2 > table.maxfd then some (table, .error .emfile)
    else launch table childpid (endOf type pfd) answers

/-- `popen`. -/
def popen (openMax : Nat) (table : Table) (type : Bytes) (answers : PopenAnswers) :
    Option (Table × Except Errno Stream) :=
  if badType type then some (table, .error .einval)
  else
    let table := allocate openMax table answers.calloc
    match table.childpid with
    | none => some (table, .error .enomem)
    | some childpid => connect table childpid type answers

/-- `pclose`; an error is the result `-1`. -/
def pclose (table : Table) (fp : Stream) (answers : PcloseAnswers) :
    Option (Table × Except Errno Int) :=
  match table.childpid with
  | none => some (table, .error .einval)
  | some childpid =>
    let fd := fp.fileno
    if fd > table.maxfd then some (table, .error .einval)
    else do
      let pid ← load childpid fd
      if pid = 0 then some (table, .error .einval)
      else do
        let childpid ← store childpid fd 0
        let table := { table with childpid := some childpid }
        match answers.fclose with
        | some errno => some (table, .error errno)
        | none => some (table, answers.waitpid)

/-! ## Sequences of calls -/

/-- The table, and the streams that `popen` returned and that were not yet passed to `pclose`. -/
structure World where
  /-- The table. -/
  table : Table := {}
  /-- The streams. -/
  live : List Stream := []
deriving DecidableEq

/-- A call with what the system answers. -/
inductive Event where
  /-- `popen`. -/
  | popen (type : Bytes) (answers : PopenAnswers)
  /-- `pclose`. -/
  | pclose (fp : Stream) (answers : PcloseAnswers)

/-- What a call returns. -/
inductive Reply where
  /-- From `popen`. -/
  | opened (result : Except Errno Stream)
  /-- From `pclose`. -/
  | closed (result : Except Errno Int)

/-- The streams after a call of `popen`. -/
def withResult (live : List Stream) : Except Errno Stream → List Stream
  | .ok fp => fp :: live
  | .error _ => live

/-- A call. -/
def step (openMax : Nat) (world : World) : Event → Option (World × Reply)
  | .popen type answers => (Popen.popen openMax world.table type answers).map fun next =>
    (⟨next.1, withResult world.live next.2⟩, .opened next.2)
  | .pclose fp answers => (Popen.pclose world.table fp answers).map fun next =>
    (⟨next.1, world.live.erase fp⟩, .closed next.2)

/-- What the system may answer: a pipe has descriptors that no stream has that is still open, and a
child has a process id. -/
def Possible (world : World) : Event → Prop
  | .popen _ answers =>
    (∀ pfd, answers.pipe = .ok pfd →
      ∀ fp ∈ world.live, fp.fileno ≠ pfd.1 ∧ fp.fileno ≠ pfd.2) ∧
    ∀ pid, answers.fork = .ok pid → 0 < pid
  | .pclose _ _ => True

/-- The entries that are not zero are those of the streams. -/
def Matches (world : World) : Prop :=
  match world.table.childpid with
  | none => world.live = []
  | some childpid => ∀ fd, (∃ pid, load childpid fd = some pid ∧ pid ≠ 0) ↔
    ∃ fp ∈ world.live, fp.fileno = fd

/-- `pclose` answers `EINVAL` for every other stream. -/
def Refuses (world : World) : Event → Reply → Prop
  | .pclose fp _, .closed result => fp ∉ world.live → result = .error .einval
  | _, _ => True

/-- In a sequence of calls every access is inside of the table, the entries are those of the
streams after each call, and `pclose` refuses every other stream. -/
def Correct (openMax : Nat) : World → List Event → Prop
  | _, [] => True
  | world, event :: events => ∃ next reply, step openMax world event = some (next, reply) ∧
    Matches next ∧ Refuses world event reply ∧ Correct openMax next events

/-- All calls of a sequence satisfy a condition on the state before them. -/
def Throughout (condition : World → Event → Prop) (openMax : Nat) : World → List Event → Prop
  | _, [] => True
  | world, event :: events => condition world event ∧
    ∀ next reply, step openMax world event = some (next, reply) →
      Throughout condition openMax next events

/-- `popen` comes to write the entry behind the table. -/
def Overruns (table : Table) (type : Bytes) (answers : PopenAnswers) : Prop :=
  ¬ badType type ∧ type.getD 0 0 ≠ letterR ∧ table.childpid.isSome ∧
    (∃ pfd, answers.pipe = .ok pfd ∧ pfd.1 < table.maxfd ∧ pfd.2 = table.maxfd) ∧
    answers.fork.isOk ∧ answers.fdopen.isOk

/-- A call that keeps inside of the table: `popen` does not write to a pipe whose descriptor is
`maxfd`, and a stream that `popen` did not return has a descriptor of its own that is not negative
and not `maxfd`. -/
def Inside (openMax : Nat) (world : World) : Event → Prop
  | .popen type answers =>
    ¬ Overruns (allocate openMax world.table answers.calloc) type answers
  | .pclose fp _ => fp ∈ world.live ∨ world.table.childpid = none ∨
    (0 ≤ fp.fileno ∧ fp.fileno ≠ world.table.maxfd ∧
      ∀ other ∈ world.live, other.fileno ≠ fp.fileno)

/-! ## One call -/

/-- The invariant of the calls: the table has its size, its entries are those of the streams, and no
two streams share a descriptor. -/
structure Sound (world : World) : Prop where
  /-- The entries are those of the streams. -/
  entries : Matches world
  /-- The size. -/
  size : ∀ childpid, world.table.childpid = some childpid → childpid.length = world.table.maxfd
  /-- No two streams share a descriptor. -/
  distinct : (world.live.map Stream.fileno).Nodup

variable {openMax : Nat} {world : World} {table : Table} {childpid : List Int} {live : List Stream}
  {fd : Nat} {answers : PopenAnswers}

/-- An entry of the table. -/
theorem load_of_lt {i : Nat} (inside : i < childpid.length) :
    load childpid i = some childpid[i] := by
  rw [load, if_pos (Int.natCast_nonneg i), Int.toNat_natCast, List.getElem?_eq_getElem inside]

/-- Only entries are read. -/
theorem load_eq_none_iff {i : Int} :
    load childpid i = none ↔ i < 0 ∨ childpid.length ≤ i.toNat := by
  unfold load
  split
  · rw [List.getElem?_eq_none_iff]
    omega
  · simp only [true_iff]
    omega

/-- What is read after a write. -/
theorem load_set {i : Nat} (inside : i < childpid.length) (pid : Int) (j : Int) :
    load (childpid.set i pid) j = if j = i then some pid else load childpid j := by
  unfold load
  by_cases nonneg : 0 ≤ j
  · rw [if_pos nonneg, if_pos nonneg, List.getElem?_set]
    by_cases same : j = i
    · have index : i = j.toNat := by omega
      rw [if_pos index, if_pos inside, if_pos same]
    · have index : ¬ i = j.toNat := by omega
      rw [if_neg index, if_neg same]
  · have other : ¬ j = i := by omega
    rw [if_neg nonneg, if_neg nonneg, if_neg other]

/-- The child reads only entries. -/
theorem closeAll_isSome {list : List Nat} (inside : ∀ i ∈ list, i < childpid.length) :
    ∃ closed, closeAll childpid list = some closed := by
  induction list with
  | nil => exact ⟨[], rfl⟩
  | cons i rest later =>
    obtain ⟨closed, same⟩ := later fun j mem => inside j (List.mem_cons_of_mem _ mem)
    have here := load_of_lt (inside i List.mem_cons_self)
    rw [closeAll, here, same]
    exact ⟨_, rfl⟩

/-- A new table has no entries. -/
theorem Sound.allocate (sound : Sound ⟨table, live⟩) (calloc : Bool) :
    Sound ⟨allocate openMax table calloc, live⟩ := by
  unfold Popen.allocate
  cases unset : table.childpid with
  | some childpid => exact sound
  | none =>
    have empty : live = [] := by
      have entries := sound.entries
      simp only [Matches, unset] at entries
      exact entries
    subst empty
    cases calloc with
    | false => exact ⟨rfl, fun _ absent => (nomatch absent), List.nodup_nil⟩
    | true =>
      refine ⟨?_, ?_, List.nodup_nil⟩
      · intro fd
        have zero : ∀ pid, load (List.replicate openMax 0) fd = some pid → pid = 0 := by
          intro pid read
          unfold load at read
          split at read
          · exact List.eq_of_mem_replicate (List.mem_of_getElem? read)
          · cases read
        constructor
        · rintro ⟨pid, read, nonzero⟩
          exact absurd (zero pid read) nonzero
        · rintro ⟨fp, mem, -⟩
          cases mem
      · rintro childpid ⟨⟩
        exact List.length_replicate

/-- The entry of a new stream. -/
theorem Sound.push (sound : Sound ⟨table, live⟩) (set : table.childpid = some childpid)
    (fresh : ∀ fp ∈ live, fp.fileno ≠ fd) (inside : fd < table.maxfd) (address : Nat) {pid : Nat}
    (positive : 0 < pid) :
    Sound ⟨{ table with childpid := some (childpid.set fd pid) }, ⟨address, fd⟩ :: live⟩ := by
  have size : childpid.length = table.maxfd := sound.size childpid set
  have entries := sound.entries
  simp only [Matches, set] at entries
  refine ⟨?_, ?_, ?_⟩
  · intro i
    rw [load_set (by omega)]
    by_cases same : i = fd
    · rw [if_pos same]
      constructor
      · intro _
        exact ⟨_, List.mem_cons_self, same.symm⟩
      · intro _
        exact ⟨pid, rfl, by omega⟩
    · rw [if_neg same, entries i]
      constructor
      · rintro ⟨fp, mem, number⟩
        exact ⟨fp, List.mem_cons_of_mem _ mem, number⟩
      · rintro ⟨fp, mem, number⟩
        rcases List.mem_cons.mp mem with rfl | mem
        · exact absurd number.symm same
        · exact ⟨fp, mem, number⟩
  · rintro other ⟨⟩
    rw [List.length_set]
    exact size
  · refine List.nodup_cons.mpr ⟨?_, sound.distinct⟩
    intro mem
    obtain ⟨fp, mem, number⟩ := List.mem_map.mp mem
    exact fresh fp mem number

/-- `popen` from `fork` on, with a descriptor of the table. -/
theorem launch_inside (sound : Sound ⟨table, live⟩) (set : table.childpid = some childpid)
    (fresh : ∀ fp ∈ live, fp.fileno ≠ fd) (positive : ∀ pid, answers.fork = .ok pid → 0 < pid)
    (inside : answers.fork.isOk → answers.fdopen.isOk → fd < table.maxfd) :
    ∃ next result, launch table childpid fd answers = some (next, result) ∧
      Sound ⟨next, withResult live result⟩ := by
  have size : childpid.length = table.maxfd := sound.size childpid set
  obtain ⟨closed, read⟩ : ∃ closed, closeAll childpid (List.range table.maxfd) = some closed :=
    closeAll_isSome fun i mem => size ▸ List.mem_range.mp mem
  unfold launch
  cases forked : answers.fork with
  | error errno => exact ⟨table, .error errno, rfl, sound⟩
  | ok pid =>
    simp only [read, Option.bind_eq_bind, Option.bind_some]
    cases opened : answers.fdopen with
    | error errno => exact ⟨table, .error errno, rfl, sound⟩
    | ok address =>
      rw [forked, opened] at inside
      have bound : fd < table.maxfd := inside rfl rfl
      have stores : store childpid fd pid = some (childpid.set fd pid) := by
        rw [store, Int.toNat_natCast, if_pos ⟨Int.natCast_nonneg fd, size ▸ bound⟩]
      refine ⟨_, .ok ⟨address, fd⟩, ?_, sound.push set fresh bound address (positive pid forked)⟩
      simp only [stores, Option.bind_some]

/-- `popen` from `fork` on, with the descriptor behind the table. -/
theorem launch_outside (size : childpid.length = table.maxfd) (forked : answers.fork.isOk)
    (opened : answers.fdopen.isOk) : launch table childpid table.maxfd answers = none := by
  unfold launch
  cases fork : answers.fork with
  | error errno =>
    rw [fork] at forked
    cases forked
  | ok pid =>
    cases fdopen : answers.fdopen with
    | error errno =>
      rw [fdopen] at opened
      cases opened
    | ok address =>
      have stores : store childpid table.maxfd pid = none := by
        rw [store, Int.toNat_natCast, if_neg (by omega)]
      cases closeAll childpid (List.range table.maxfd) with
      | none => rfl
      | some closed => simp [stores]

/-- `popen` keeps the invariant unless it comes to the entry behind the table. -/
theorem popen_inside (sound : Sound ⟨table, live⟩) (type : Bytes)
    (fresh : ∀ pfd, answers.pipe = .ok pfd → ∀ fp ∈ live, fp.fileno ≠ pfd.1 ∧ fp.fileno ≠ pfd.2)
    (positive : ∀ pid, answers.fork = .ok pid → 0 < pid)
    (inside : ¬ Overruns (allocate openMax table answers.calloc) type answers) :
    ∃ next result, popen openMax table type answers = some (next, result) ∧
      Sound ⟨next, withResult live result⟩ := by
  unfold popen
  by_cases bad : badType type
  · exact ⟨table, .error .einval, if_pos bad, sound⟩
  rw [if_neg bad]
  have sound' : Sound ⟨allocate openMax table answers.calloc, live⟩ := sound.allocate answers.calloc
  generalize allocate openMax table answers.calloc = table' at inside sound'
  simp only
  cases set : table'.childpid with
  | none => exact ⟨table', .error .enomem, rfl, sound'⟩
  | some childpid =>
    simp only [connect]
    cases piped : answers.pipe with
    | error errno => exact ⟨table', .error errno, rfl, sound'⟩
    | ok pfd =>
      simp only
      split
      · exact ⟨table', .error .emfile, rfl, sound'⟩
      · rename_i bounds
        refine launch_inside sound' set ?_ positive ?_
        · intro fp mem
          unfold endOf
          split
          · exact (fresh pfd piped fp mem).1
          · exact (fresh pfd piped fp mem).2
        · intro forked opened
          by_contra outside
          refine inside ⟨bad, ?_, by rw [set]; rfl, ⟨pfd, piped, by omega, ?_⟩, forked, opened⟩
          · intro reads
            rw [endOf, if_pos reads] at outside
            omega
          · unfold endOf at outside
            split at outside <;> omega

/-- The entry behind the table. -/
theorem popen_outside (sound : Sound ⟨table, live⟩) (type : Bytes)
    (overruns : Overruns (allocate openMax table answers.calloc) type answers) :
    popen openMax table type answers = none := by
  have sound' : Sound ⟨allocate openMax table answers.calloc, live⟩ := sound.allocate answers.calloc
  obtain ⟨good, writes, isSome, ⟨pfd, piped, below, behind⟩, forked, opened⟩ := overruns
  unfold popen
  rw [if_neg good]
  generalize allocate openMax table answers.calloc = table' at sound' isSome below behind
  simp only
  obtain ⟨childpid, set⟩ := Option.isSome_iff_exists.mp isSome
  have size : childpid.length = table'.maxfd := sound'.size childpid set
  have bounds : ¬ (pfd.1 ≥ table'.maxfd ∨ pfd.2 > table'.maxfd) := by omega
  have same : endOf type pfd = table'.maxfd := by rw [endOf, if_neg writes, behind]
  simp only [set, connect, piped]
  rw [if_neg bounds, same]
  exact launch_outside size forked opened

/-- The entry of an open stream, which `pclose` finds and clears. -/
theorem Sound.entry (sound : Sound ⟨table, live⟩) {number : Int}
    (shared : ∃ fp ∈ live, fp.fileno = number) :
    ∃ childpid pid, ∃ fd : Nat, table.childpid = some childpid ∧ number = fd ∧
      fd < childpid.length ∧ ¬ number > table.maxfd ∧ load childpid number = some pid ∧ pid ≠ 0 ∧
      store childpid number 0 = some (childpid.set fd 0) := by
  have entries := sound.entries
  cases set : table.childpid with
  | none =>
    simp only [Matches, set] at entries
    obtain ⟨fp, mem, -⟩ := shared
    rw [entries] at mem
    cases mem
  | some childpid =>
    simp only [Matches, set] at entries
    have size : childpid.length = table.maxfd := sound.size childpid set
    obtain ⟨pid, read, nonzero⟩ := (entries number).mpr shared
    have bounds : ¬ (number < 0 ∨ childpid.length ≤ number.toNat) := by
      rw [← load_eq_none_iff, read]
      exact Option.some_ne_none pid
    obtain ⟨fd, same⟩ : ∃ fd : Nat, number = fd := ⟨number.toNat, by omega⟩
    refine ⟨childpid, pid, fd, rfl, same, by omega, by omega, read, nonzero, ?_⟩
    rw [store, if_pos (by omega), same, Int.toNat_natCast]

/-- The entry of a stream that is closed. -/
theorem Sound.remove (sound : Sound ⟨table, live⟩) (set : table.childpid = some childpid)
    {fp : Stream} (mem : fp ∈ live) (number : fp.fileno = fd) (inside : fd < childpid.length) :
    Sound ⟨{ table with childpid := some (childpid.set fd 0) }, live.erase fp⟩ := by
  have entries := sound.entries
  simp only [Matches, set] at entries
  have distinct : (live.map Stream.fileno).Nodup := sound.distinct
  have nodup : live.Nodup := List.Nodup.of_map _ distinct
  refine ⟨?_, ?_, ?_⟩
  · intro i
    rw [load_set inside]
    by_cases same : i = fd
    · rw [if_pos same]
      constructor
      · rintro ⟨pid, zero, nonzero⟩
        exact absurd (Option.some.inj zero).symm nonzero
      · rintro ⟨other, left, number'⟩
        obtain ⟨ne, mem'⟩ := nodup.mem_erase_iff.mp left
        have shared : other.fileno = fp.fileno := by rw [number', number, same]
        exact absurd (List.inj_on_of_nodup_map distinct mem' mem shared) ne
    · rw [if_neg same, entries i]
      constructor
      · rintro ⟨other, mem', number'⟩
        have ne : other ≠ fp := by
          rintro rfl
          exact same (number'.symm.trans number)
        exact ⟨other, nodup.mem_erase_iff.mpr ⟨ne, mem'⟩, number'⟩
      · rintro ⟨other, left, number'⟩
        exact ⟨other, List.mem_of_mem_erase left, number'⟩
  · rintro other ⟨⟩
    rw [List.length_set]
    exact sound.size childpid set
  · exact distinct.sublist (List.erase_sublist.map _)

/-- `pclose` of a stream with the descriptor of an open stream clears its entry. -/
theorem pclose_shared (sound : Sound ⟨table, live⟩) {fp : Stream}
    (shared : ∃ other ∈ live, other.fileno = fp.fileno) (answers : PcloseAnswers) :
    ∃ childpid, ∃ fd : Nat, table.childpid = some childpid ∧ fp.fileno = fd ∧
      fd < childpid.length ∧ ∃ result, pclose table fp answers =
        some ({ table with childpid := some (childpid.set fd 0) }, result) := by
  obtain ⟨childpid, pid, fd, set, number, inside, notAbove, read, nonzero, stores⟩ :=
    sound.entry shared
  refine ⟨childpid, fd, set, number, inside, ?_⟩
  unfold pclose
  simp only [set, if_neg notAbove, read, Option.bind_eq_bind, Option.bind_some, if_neg nonzero,
    stores]
  cases answers.fclose with
  | some errno => exact ⟨_, rfl⟩
  | none => exact ⟨_, rfl⟩

/-- `pclose` of a stream that `popen` returned. -/
theorem pclose_live (sound : Sound ⟨table, live⟩) {fp : Stream} (mem : fp ∈ live)
    (answers : PcloseAnswers) :
    ∃ next result, pclose table fp answers = some (next, result) ∧
      Sound ⟨next, live.erase fp⟩ := by
  obtain ⟨childpid, fd, set, number, inside, result, returns⟩ := pclose_shared sound ⟨fp, mem, rfl⟩
    answers
  exact ⟨_, result, returns, sound.remove set mem number inside⟩

/-- `pclose` of another stream, with a descriptor of its own. -/
theorem pclose_other (sound : Sound ⟨table, live⟩) {fp : Stream} (answers : PcloseAnswers)
    (inside : table.childpid = none ∨ (0 ≤ fp.fileno ∧ fp.fileno ≠ table.maxfd ∧
      ∀ other ∈ live, other.fileno ≠ fp.fileno)) :
    pclose table fp answers = some (table, .error .einval) := by
  unfold pclose
  cases set : table.childpid with
  | none => rfl
  | some childpid =>
    rw [set] at inside
    obtain ⟨nonneg, notMax, own⟩ := inside.resolve_left (Option.some_ne_none childpid)
    have size : childpid.length = table.maxfd := sound.size childpid set
    have entries := sound.entries
    simp only [Matches, set] at entries
    by_cases above : fp.fileno > table.maxfd
    · simp only [if_pos above]
    · have readable : load childpid fp.fileno ≠ none := by
        rw [ne_eq, load_eq_none_iff]
        omega
      obtain ⟨pid, read⟩ := Option.ne_none_iff_exists'.mp readable
      have zero : pid = 0 := by
        by_contra nonzero
        obtain ⟨other, mem, number⟩ := (entries fp.fileno).mp ⟨pid, read, nonzero⟩
        exact own other mem number
      simp only [if_neg above, read, Option.bind_eq_bind, Option.bind_some, if_pos zero]

/-- `pclose` of another stream leaves the table, or clears the entry of a stream that is still
open. -/
theorem pclose_outside (sound : Sound ⟨table, live⟩) {fp : Stream} (notLive : fp ∉ live)
    (answers : PcloseAnswers)
    (outside : ¬ (table.childpid = none ∨ (0 ≤ fp.fileno ∧ fp.fileno ≠ table.maxfd ∧
      ∀ other ∈ live, other.fileno ≠ fp.fileno))) {next : Table} {result : Except Errno Int}
    (returns : pclose table fp answers = some (next, result)) :
    ¬ Matches ⟨next, live.erase fp⟩ := by
  rw [List.erase_of_not_mem notLive]
  by_cases shared : ∃ other ∈ live, other.fileno = fp.fileno
  · obtain ⟨childpid, fd, -, number, inside, result', returns'⟩ :=
      pclose_shared sound shared answers
    rw [returns] at returns'
    have cleared : next = { table with childpid := some (childpid.set fd 0) } :=
      congrArg Prod.fst (Option.some.inj returns')
    intro matched
    rw [cleared] at matched
    obtain ⟨pid, read, nonzero⟩ := (matched fp.fileno).mpr shared
    rw [load_set inside, if_pos number] at read
    exact nonzero (Option.some.inj read).symm
  · obtain ⟨childpid, set⟩ := Option.ne_none_iff_exists'.mp fun unset => outside (.inl unset)
    have size : childpid.length = table.maxfd := sound.size childpid set
    -- The descriptor is of no open stream, so it is negative or `maxfd`.
    have leaves : fp.fileno < 0 ∨ fp.fileno = table.maxfd := by
      by_contra inTable
      refine outside (.inr ⟨by omega, by omega, ?_⟩)
      intro other mem number
      exact shared ⟨other, mem, number⟩
    have unread : load childpid fp.fileno = none := by
      rw [load_eq_none_iff]
      omega
    have notAbove : ¬ fp.fileno > table.maxfd := by omega
    unfold pclose at returns
    simp only [set, if_neg notAbove, unread, Option.bind_eq_bind, Option.bind_none] at returns
    cases returns

/-- A call that keeps inside of the table. -/
theorem step_inside (sound : Sound world) {event : Event} (possible : Possible world event)
    (inside : Inside openMax world event) :
    ∃ next reply, step openMax world event = some (next, reply) ∧ Sound next ∧
      Refuses world event reply := by
  cases event with
  | popen type answers =>
    obtain ⟨next, result, returns, sound'⟩ := popen_inside sound type possible.1 possible.2 inside
    exact ⟨⟨next, withResult world.live result⟩, .opened result, by rw [step, returns]; rfl, sound',
      trivial⟩
  | pclose fp answers =>
    by_cases mem : fp ∈ world.live
    · obtain ⟨next, result, returns, sound'⟩ := pclose_live sound mem answers
      exact ⟨⟨next, world.live.erase fp⟩, .closed result, by rw [step, returns]; rfl, sound',
        fun notLive => absurd mem notLive⟩
    · have returns := pclose_other sound answers (inside.resolve_left mem)
      refine ⟨world, .closed (.error .einval), ?_, sound, fun _ => rfl⟩
      rw [step, returns, List.erase_of_not_mem mem]
      rfl

/-- A call that does not. -/
theorem step_outside (sound : Sound world) {event : Event}
    (outside : ¬ Inside openMax world event) {next : World} {reply : Reply}
    (returns : step openMax world event = some (next, reply)) : ¬ Matches next := by
  cases event with
  | popen type answers =>
    rw [step, popen_outside sound type (not_not.mp outside)] at returns
    cases returns
  | pclose fp answers =>
    rw [step] at returns
    obtain ⟨⟨table, result⟩, closes, same⟩ := Option.map_eq_some_iff.mp returns
    obtain rfl : (⟨table, world.live.erase fp⟩ : World) = next := congrArg Prod.fst same
    exact pclose_outside sound (fun mem => outside (.inl mem)) answers
      (fun inside => outside (.inr inside)) closes

/-! ## All sequences -/

/-- A sequence of calls from a state with the invariant. -/
theorem correct_iff_of_sound {events : List Event} (sound : Sound world)
    (possible : Throughout Possible openMax world events) :
    Correct openMax world events ↔ Throughout (Inside openMax) openMax world events := by
  induction events generalizing world with
  | nil => exact Iff.rfl
  | cons event events later =>
    constructor
    · rintro ⟨next, reply, returns, matched, -, rest⟩
      have inside : Inside openMax world event := by
        by_contra outside
        exact step_outside sound outside returns matched
      refine ⟨inside, ?_⟩
      intro next' reply' returns'
      obtain ⟨next'', reply'', returns'', sound', -⟩ := step_inside sound possible.1 inside
      obtain ⟨rfl, rfl⟩ : next'' = next ∧ reply'' = reply := by
        rw [returns] at returns''
        cases returns''
        exact ⟨rfl, rfl⟩
      rw [returns] at returns'
      cases returns'
      exact (later sound' (possible.2 _ _ returns)).mp rest
    · rintro ⟨inside, rest⟩
      obtain ⟨next, reply, returns, sound', refuses⟩ := step_inside sound possible.1 inside
      exact ⟨next, reply, returns, sound'.entries, refuses,
        (later sound' (possible.2 _ _ returns)).mpr (rest next reply returns)⟩

/-- No table yet. -/
theorem sound_start : Sound {} :=
  ⟨rfl, fun _ absent => (nomatch absent), List.nodup_nil⟩

/-- The calls of a program are correct exactly when none of them leaves the table: no `popen` for
writing gets a pipe with `maxfd`, and each stream of another origin that is passed to `pclose` has a
descriptor of its own that is neither negative nor `maxfd`. -/
theorem popen_pclose_correct_iff (openMax : Nat) (events : List Event)
    (possible : Throughout Possible openMax {} events) :
    Correct openMax {} events ↔ Throughout (Inside openMax) openMax {} events :=
  correct_iff_of_sound sound_start possible

/-- A child that writes to a stream, which is closed then. -/
def readAndClose : List Event :=
  [.popen [letterR] ⟨true, .ok (3, 4), .ok 100, .ok 1⟩, .pclose ⟨1, 3⟩ ⟨none, .ok 0⟩]

/-- The two calls are correct. -/
theorem readAndClose_correct : Correct 8 {} readAndClose := by
  have possible : Throughout Possible 8 {} readAndClose := by
    refine ⟨⟨?_, ?_⟩, ?_⟩
    · rintro pfd ⟨⟩ fp mem
      cases mem
    · rintro pid ⟨⟩
      decide
    · rintro next reply ⟨⟩
      exact ⟨trivial, fun _ _ _ => trivial⟩
  refine (popen_pclose_correct_iff 8 readAndClose possible).mpr ⟨?_, ?_⟩
  · rintro ⟨-, writes, -⟩
    exact writes rfl
  · rintro next reply ⟨⟩
    exact ⟨.inl List.mem_cons_self, fun _ _ _ => trivial⟩

/-- A child that reads from a stream, with the descriptor behind a table of 256 entries. -/
def writeToMaxfd : Event := .popen [letterW] ⟨true, .ok (255, 256), .ok 100, .ok 1⟩

/-- The entry behind the table is written. -/
theorem popen_pclose_maxfd : Throughout Possible 256 {} [writeToMaxfd] ∧
    step 256 {} writeToMaxfd = none ∧ ¬ Correct 256 {} [writeToMaxfd] := by
  have leaves : step 256 {} writeToMaxfd = none := by
    have overruns : Overruns (allocate 256 {} true) [letterW]
        ⟨true, .ok (255, 256), .ok 100, .ok 1⟩ :=
      ⟨by decide, by decide, rfl, ⟨(255, 256), rfl, by decide, rfl⟩, rfl, rfl⟩
    rw [writeToMaxfd, step, popen_outside sound_start [letterW] overruns]
    rfl
  refine ⟨⟨⟨?_, ?_⟩, ?_⟩, leaves, ?_⟩
  · rintro pfd ⟨⟩ fp mem
    cases mem
  · rintro pid ⟨⟩
    decide
  · intro next reply returns
    rw [leaves] at returns
    cases returns
  · rintro ⟨next, reply, returns, -⟩
    rw [leaves] at returns
    cases returns

end CodeLearning.Popen
