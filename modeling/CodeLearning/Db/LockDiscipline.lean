import CodeLearning.Db.Record
import CodeLearning.Lib.LockOrder

/-!
# Lock discipline of the database library

The library locks one byte of the hash table for a chain, byte `0` of the index file for the
free list, the index file after its table to append a record, and the whole data file to
append data. The bytes of the table rank below all others: a call takes its chain first and,
holding it, one of the other three at a time. This holds whatever the files contain.
-/

namespace CodeLearning

namespace Db

open FileProgram

/-- Rank of a byte: the bytes of the hash table come first. -/
def byteRank : File → Nat → Nat
  | .idx, b => if 0 < b ∧ b < (nhashDef + 1) * ptrSz + 1 then 0 else 1
  | .dat, _ => 1

/-- A mark of a call that has returned. -/
def IsReturn : Note → Prop
  | .returned .. => True
  | _ => False

/-- From the locks `before` the program keeps the order and ends with the locks `after_`. -/
def Moves {α : Type} (before after_ : Table File) (prog : DbProg α) (post : α → Prop) : Prop :=
  Ordered byteRank IsReturn prog (fun value held => held = after_ ∧ post value) before

/-- All locks held are on bytes of the hash table. -/
def Low (held : Table File) : Prop := ∀ f b, held f b ≠ none → byteRank f b = 0

section Rules

variable {α β : Type} {held before after_ last : Table File} {post : α → Prop}
  {post' : β → Prop} {db : DB}

/-- Returning moves no locks. -/
theorem moves_ret {value : α} (holds : post value) :
    Moves held held (.ret value : DbProg α) post := ⟨rfl, holds⟩

/-- Doing nothing. -/
theorem moves_skip : Moves held held (.ret () : DbProg Unit) fun _ => True := ⟨rfl, trivial⟩

/-- After a failure nothing is required. -/
theorem moves_abort {failure : Failure} :
    Moves before after_ (.abort failure : DbProg α) post := trivial

/-- One program after the other. -/
theorem moves_bind {prog : DbProg α} {f : α → DbProg β} (first : Moves before after_ prog post)
    (second : ∀ value, post value → Moves after_ last (f value) post') :
    Moves before last (prog >>= f) post' := by
  apply ordered_bind
  apply ordered_mono first
  rintro value held ⟨rfl, holds⟩
  exact second value holds

/-- Reading moves no locks. -/
theorem moves_read {file : File} {off len : Nat} :
    Moves held held (.read file off len : DbProg Bytes) fun _ => True :=
  ⟨trivial, fun _ => ⟨rfl, trivial⟩⟩

/-- Writing moves no locks. -/
theorem moves_write {file : File} {off : Nat} {bytes : Bytes} :
    Moves held held (.write file off bytes : DbProg Unit) fun _ => True :=
  ⟨trivial, fun _ => ⟨rfl, trivial⟩⟩

/-- Asking for the size moves no locks. -/
theorem moves_size {file : File} :
    Moves held held (.size file : DbProg Nat) fun _ => True :=
  ⟨trivial, fun _ => ⟨rfl, trivial⟩⟩

/-- Noting something inside a request moves no locks. -/
theorem moves_note {mark : Note} (inside : ¬ IsReturn mark) :
    Moves held held (.note mark : DbProg Unit) fun _ => True :=
  ⟨fun isReturn => absurd isReturn inside, fun _ => ⟨rfl, trivial⟩⟩

/-- A lock above the table may be taken while only the table is locked. -/
theorem moves_lock {file : File} {mode : LockMode} {range : Range} (low : Low held)
    (high : ∀ b, range.Contains b → byteRank file b = 1) :
    Moves held (held.set file range (some mode)) (.lock file mode range : DbProg Unit)
      fun _ => True := by
  refine ⟨?_, fun _ => ⟨rfl, trivial⟩⟩
  intro b inside f b' holds
  rw [low f b' holds, high b inside]
  exact Nat.zero_lt_one

/-- Dropping a lock above the table leaves the locks from before it was taken. -/
theorem moves_unlock {file : File} {mode : LockMode} {range : Range} (low : Low held)
    (high : ∀ b, range.Contains b → byteRank file b = 1) :
    Moves (held.set file range (some mode)) held (.unlock file range : DbProg Unit)
      fun _ => True := by
  refine ⟨trivial, fun _ => ⟨?_, trivial⟩⟩
  apply Table.set_set_none
  intro b inside
  by_contra holds
  have zero := low file b holds
  rw [high b inside] at zero
  cases zero

/-- `err_dump` moves no locks. -/
theorem moves_errDumpIf {condition : Prop} [Decidable condition] {text : String} :
    Moves held held (errDumpIf condition text) fun _ => True := by
  unfold errDumpIf
  split
  · exact moves_abort
  · exact moves_ret trivial

/-- `err_quit` moves no locks. -/
theorem moves_errQuitUnlessPtr {ptr : Int} {text : String} :
    Moves held held (errQuitUnlessPtr ptr text) fun _ => True := by
  unfold errQuitUnlessPtr
  split
  · exact moves_abort
  · exact moves_ret trivial

/-- `lseek` in the index file moves no locks. -/
theorem moves_seekIdx {offset : Int} {text : String} :
    Moves held held (seekIdx db offset text) (Kept db) := by
  unfold seekIdx
  split
  · exact moves_abort
  · exact moves_ret ⟨rfl, rfl, rfl⟩

/-- `read` of the index file moves no locks. -/
theorem moves_readIdx {len : Nat} :
    Moves held held (readIdx db len) fun r => Kept db r.2 :=
  moves_bind moves_read fun _ _ => moves_ret ⟨rfl, rfl, rfl⟩

/-- `write` to the index file moves no locks. -/
theorem moves_writeIdx {buf : Bytes} : Moves held held (writeIdx db buf) (Kept db) :=
  moves_bind moves_write fun _ _ => moves_ret ⟨rfl, rfl, rfl⟩

/-- `lseek` moves no locks. -/
theorem moves_seekTo {file : File} {offset : Int} {whence : Whence} {text : String} :
    Moves held held (seekTo file offset whence text) fun _ => True := by
  cases whence with
  | set =>
    by_cases negative : offset < 0
    · simp only [seekTo, negative, if_true]
      exact moves_abort
    · simp only [seekTo, negative, if_false]
      exact moves_ret trivial
  | end_ => exact moves_bind moves_size fun _ _ => moves_ret trivial

/-! ## The ranges locked -/

/-- The byte of the free list comes after the chains. -/
theorem byteRank_free (b : Nat) (inside : (byteAt freeOff).Contains b) :
    byteRank .idx b = 1 := by
  simp only [byteAt, freeOff, Range.Contains] at inside
  simp only [byteRank]
  split <;> omega

/-- The bytes after the table come after the chains. -/
theorem byteRank_tail (standard : db.nhash = nhashDef) (b : Nat)
    (inside : (tailRange db).Contains b) : byteRank .idx b = 1 := by
  simp only [tailRange, Range.Contains, standard] at inside
  simp only [byteRank]
  split <;> omega

/-- The data file comes after the chains. -/
theorem byteRank_dat (b : Nat) (_ : wholeFile.Contains b) : byteRank .dat b = 1 := rfl

/-! ## The functions -/

/-- `_db_readptr` moves no locks. -/
theorem moves_readptr {offset : Int} :
    Moves held held (dbReadptr db offset) fun r => Kept db r.2 := by
  apply moves_bind moves_seekIdx
  intro db₁ kept₁
  apply moves_bind moves_readIdx
  intro r kept₂
  apply moves_bind moves_errDumpIf
  intro _ _
  exact moves_ret (kept₁.trans kept₂)

/-- The part of `_db_readidx` after the header moves no locks. -/
theorem moves_readidxLine :
    Moves held held (readidxLine db) fun r => Kept db r.2 := by
  apply moves_bind moves_errDumpIf
  intro _ _
  apply moves_bind moves_readIdx
  intro r kept
  apply moves_bind moves_errDumpIf
  intro _ _
  apply moves_bind moves_errDumpIf
  intro _ _
  split
  · exact moves_abort
  · exact moves_ret (kept.trans ⟨rfl, rfl, rfl⟩)

/-- `_db_readidx` moves no locks. -/
theorem moves_readidx {offset : Int} :
    Moves held held (dbReadidx db offset) fun r => Kept db r.2 := by
  have seek : Moves held held (seekRecord db offset) (Kept db) := by
    unfold seekRecord
    split
    · exact moves_ret (Kept.refl db)
    · exact moves_seekIdx
  apply moves_bind seek
  intro db₁ kept₁
  apply moves_bind moves_readIdx
  intro r kept₂
  have kept : Kept db r.2 := kept₁.trans ⟨kept₂.chainoff, kept₂.hashoff, kept₂.nhash⟩
  dsimp only
  split
  · split
    · exact moves_ret kept
    · exact moves_abort
  · apply ordered_mono moves_readidxLine
    rintro r' after_ ⟨same, kept₃⟩
    exact ⟨same, kept.trans ⟨kept₃.chainoff, kept₃.hashoff, kept₃.nhash⟩⟩

/-- `_db_readdat` moves no locks. -/
theorem moves_readdat : Moves held held (dbReaddat db) fun r => Kept db r.2 := by
  apply moves_bind moves_errDumpIf
  intro _ _
  apply moves_bind moves_read
  intro _ _
  apply moves_bind moves_errDumpIf
  intro _ _
  apply moves_bind moves_errDumpIf
  intro _ _
  exact moves_ret ⟨rfl, rfl, rfl⟩

/-- The loop of `_db_find_and_lock` moves no locks. -/
theorem moves_findLoop {fuel : Nat} {key : Bytes} {offset : Int} :
    Moves held held (findLoop fuel db key offset) fun r => Kept db r.2 := by
  induction fuel generalizing db offset with
  | zero => trivial
  | succ fuel rest =>
    unfold findLoop
    split
    · exact moves_ret (Kept.refl db)
    · apply moves_bind moves_readidx
      intro r kept
      dsimp only
      split
      · exact moves_ret kept
      · apply ordered_mono rest
        rintro r' after_ ⟨same, kept'⟩
        exact ⟨same, kept.trans ⟨kept'.chainoff, kept'.hashoff, kept'.nhash⟩⟩

/-- The loop of `_db_findfree` moves no locks. -/
theorem moves_findfreeLoop {fuel keylen datlen : Nat} {saveoffset offset : Int} :
    Moves held held (findfreeLoop fuel db keylen datlen saveoffset offset)
      fun r => Kept db r.2.2 := by
  induction fuel generalizing db saveoffset offset with
  | zero => trivial
  | succ fuel rest =>
    unfold findfreeLoop
    split
    · exact moves_ret (Kept.refl db)
    · apply moves_bind moves_readidx
      intro r kept
      dsimp only
      split
      · exact moves_ret kept
      · apply ordered_mono rest
        rintro r' after_ ⟨same, kept'⟩
        exact ⟨same, kept.trans kept'⟩

/-- The loop of `db_nextrec` moves no locks. -/
theorem moves_nextrecLoop {fuel : Nat} :
    Moves held held (nextrecLoop fuel db) fun r => Kept db r.2 := by
  induction fuel generalizing db with
  | zero => trivial
  | succ fuel rest =>
    rw [nextrecLoop]
    apply moves_bind moves_readidx
    intro r kept
    dsimp only
    split
    · exact moves_ret kept
    · split
      · apply ordered_mono rest
        rintro r' after_ ⟨same, kept'⟩
        exact ⟨same, kept.trans kept'⟩
      · exact moves_ret kept

/-- `_db_writedat` in place moves no locks. -/
theorem moves_writedat_set {data : Bytes} {offset : Int} :
    Moves held held (dbWritedat db data offset .set) (Kept db) := by
  apply moves_bind moves_skip
  intro _ _
  apply moves_bind moves_seekTo
  intro _ _
  apply moves_bind moves_write
  intro _ _
  apply moves_bind moves_skip
  intro _ _
  exact moves_ret ⟨rfl, rfl, rfl⟩

/-- `_db_writedat` at the end locks the data file last. -/
theorem moves_writedat_end {data : Bytes} {offset : Int} (low : Low held) :
    Moves held held (dbWritedat db data offset .end_) (Kept db) := by
  apply moves_bind (moves_lock low byteRank_dat)
  intro _ _
  apply moves_bind moves_seekTo
  intro _ _
  apply moves_bind moves_write
  intro _ _
  apply moves_bind (moves_unlock low byteRank_dat)
  intro _ _
  exact moves_ret ⟨rfl, rfl, rfl⟩

/-- `_db_writeidx` in place moves no locks. -/
theorem moves_writeidx_set {key : Bytes} {offset ptrval : Int} :
    Moves held held (dbWriteidx db key offset .set ptrval) (Kept db) := by
  apply moves_bind moves_errQuitUnlessPtr
  intro _ _
  apply moves_bind moves_errDumpIf
  intro _ _
  apply moves_bind moves_skip
  intro _ _
  apply moves_bind moves_seekTo
  intro _ _
  apply moves_bind moves_writeIdx
  intro db₁ kept
  apply moves_bind moves_skip
  intro _ _
  exact moves_ret ⟨kept.chainoff, kept.hashoff, kept.nhash⟩

/-- `_db_writeidx` at the end locks the bytes after the table last. -/
theorem moves_writeidx_end {key : Bytes} {offset ptrval : Int} (low : Low held)
    (standard : db.nhash = nhashDef) :
    Moves held held (dbWriteidx db key offset .end_ ptrval) (Kept db) := by
  apply moves_bind moves_errQuitUnlessPtr
  intro _ _
  apply moves_bind moves_errDumpIf
  intro _ _
  apply moves_bind (moves_lock low (byteRank_tail standard))
  intro _ _
  apply moves_bind moves_seekTo
  intro _ _
  apply moves_bind moves_writeIdx
  intro db₁ kept
  have sameTail : tailRange db₁ = tailRange db := by
    simp only [tailRange, kept.nhash]
  have unlock : Moves (held.set .idx (tailRange db) (some .write)) held
      (.unlock .idx (tailRange db₁) : DbProg Unit) fun _ => True := by
    rw [sameTail]
    exact moves_unlock low (byteRank_tail standard)
  apply moves_bind unlock
  intro _ _
  exact moves_ret ⟨kept.chainoff, kept.hashoff, kept.nhash⟩

/-- `_db_writeptr` moves no locks. -/
theorem moves_writeptr {offset ptrval : Int} :
    Moves held held (dbWriteptr db offset ptrval) (Kept db) := by
  apply moves_bind moves_errQuitUnlessPtr
  intro _ _
  apply moves_bind moves_seekIdx
  intro db₁ kept
  apply ordered_mono moves_writeIdx
  rintro db₂ after_ ⟨same, kept'⟩
  exact ⟨same, kept.trans kept'⟩

/-- `_db_dodelete` locks the free list last. -/
theorem moves_dodelete (low : Low held) : Moves held held (dbDodelete db) (Kept db) := by
  apply moves_bind (moves_lock low byteRank_free)
  intro _ _
  apply moves_bind moves_writedat_set
  intro db₁ kept₁
  apply moves_bind moves_readptr
  intro r kept₂
  apply moves_bind moves_writeidx_set
  intro db₃ kept₃
  apply moves_bind moves_writeptr
  intro db₄ kept₄
  apply moves_bind moves_writeptr
  intro db₅ kept₅
  apply moves_bind (moves_note id)
  intro _ _
  apply moves_bind (moves_unlock low byteRank_free)
  intro _ _
  have kept := kept₁.trans (kept₂.trans (kept₃.trans (kept₄.trans kept₅)))
  exact moves_ret ⟨kept.chainoff, kept.hashoff, kept.nhash⟩

/-- `_db_findfree` locks the free list last. -/
theorem moves_findfree {fuel keylen datlen : Nat} (low : Low held) :
    Moves held held (dbFindfree fuel db keylen datlen) fun r => Kept db r.2 := by
  apply moves_bind (moves_lock low byteRank_free)
  intro _ _
  apply moves_bind moves_readptr
  intro r₁ kept₁
  apply moves_bind moves_findfreeLoop
  intro r₂ kept₂
  have take : ∀ {held' : Table File}, Moves held' held' (findfreeTake r₂.2.2 r₂.2.1 r₂.1)
      fun r => Kept r₂.2.2 r.2 := by
    intro held'
    unfold findfreeTake
    split
    · exact moves_ret (Kept.refl _)
    · apply moves_bind moves_writeptr
      intro db₃ kept₃
      apply moves_bind (moves_note id)
      intro _ _
      exact moves_ret kept₃
  apply moves_bind take
  intro r₃ kept₃
  apply moves_bind (moves_unlock low byteRank_free)
  intro _ _
  exact moves_ret (kept₁.trans (kept₂.trans kept₃))

/-- `db_store` that appends locks in order. -/
theorem moves_storeAppend {key data : Bytes} {ptrval : Int} (low : Low held)
    (standard : db.nhash = nhashDef) :
    Moves held held (storeAppend db key data ptrval) (Kept db) := by
  apply moves_bind (moves_writedat_end low)
  intro db₁ kept₁
  apply moves_bind (moves_writeidx_end low (kept₁.nhash.trans standard))
  intro db₂ kept₂
  apply ordered_mono moves_writeptr
  rintro db₃ after_ ⟨same, kept₃⟩
  exact ⟨same, kept₁.trans (kept₂.trans kept₃)⟩

/-- `db_store` that reuses a record moves no locks. -/
theorem moves_storeReuse {key data : Bytes} {ptrval : Int} :
    Moves held held (storeReuse db key data ptrval) (Kept db) := by
  apply moves_bind moves_writedat_set
  intro db₁ kept₁
  apply moves_bind moves_writeidx_set
  intro db₂ kept₂
  apply ordered_mono moves_writeptr
  rintro db₃ after_ ⟨same, kept₃⟩
  exact ⟨same, kept₁.trans (kept₂.trans kept₃)⟩

/-- `db_store` of an absent key locks in order. -/
theorem moves_storeAbsent {fuel : Nat} {key data : Bytes} {flag : Int} (low : Low held)
    (standard : db.nhash = nhashDef) :
    Moves held held (storeAbsent fuel db key data flag) fun r => Kept db r.2 := by
  unfold storeAbsent
  split
  · exact moves_ret ⟨rfl, rfl, rfl⟩
  · apply moves_bind moves_readptr
    intro r₁ kept₁
    apply moves_bind (moves_findfree low)
    intro r₂ kept₂
    have kept := kept₁.trans kept₂
    dsimp only
    split
    · apply moves_bind (moves_storeAppend low (kept.nhash.trans standard))
      intro db₃ kept₃
      have all := kept.trans kept₃
      exact moves_ret ⟨all.chainoff, all.hashoff, all.nhash⟩
    · apply moves_bind moves_storeReuse
      intro db₃ kept₃
      have all := kept.trans kept₃
      exact moves_ret ⟨all.chainoff, all.hashoff, all.nhash⟩

/-- `db_store` of a present key locks in order. -/
theorem moves_storePresent {key data : Bytes} {flag : Int} (low : Low held)
    (standard : db.nhash = nhashDef) :
    Moves held held (storePresent db key data flag) fun r => Kept db r.2 := by
  unfold storePresent
  split
  · exact moves_ret ⟨rfl, rfl, rfl⟩
  · split
    · apply moves_bind (moves_dodelete low)
      intro db₁ kept₁
      apply moves_bind moves_readptr
      intro r₂ kept₂
      have kept := kept₁.trans kept₂
      apply moves_bind (moves_storeAppend low (kept.nhash.trans standard))
      intro db₃ kept₃
      have all := kept.trans kept₃
      exact moves_ret ⟨all.chainoff, all.hashoff, all.nhash⟩
    · apply moves_bind moves_writedat_set
      intro db₁ kept₁
      exact moves_ret ⟨kept₁.chainoff, kept₁.hashoff, kept₁.nhash⟩

/-! ## The calls -/

/-- The locks of a process that holds a chain. -/
def chainLocked (off : Int) (mode : LockMode) : Table File :=
  Table.empty.set .idx (byteAt off) (some mode)

/-- The byte locked for a chain lies in the hash table. -/
theorem chain_low (standard : Standard db) (key : Bytes) (mode : LockMode) :
    Low (chainLocked ((dbHash db key * ptrSz : Nat) + db.hashoff) mode) := by
  have bound : dbHash db key < nhashDef := by
    rw [dbHash, standard.nhash]
    exact Nat.mod_lt _ (by decide)
  intro f b holds
  simp only [chainLocked, Table.set, Table.empty, standard.hashoff, hashOff] at holds
  split at holds
  · rename_i inside
    obtain ⟨rfl, low, high⟩ := inside
    simp only [byteAt, ptrSz] at low high
    simp only [nhashDef] at bound
    have inTable : 0 < b ∧ b < (nhashDef + 1) * ptrSz + 1 := by
      simp only [nhashDef, ptrSz]
      omega
    simp only [byteRank, if_pos inTable]
  · exact absurd rfl holds

/-- `_db_find_and_lock` returns with the chain locked, and with no other lock. -/
theorem moves_findAndLock {fuel : Nat} {key : Bytes} {mode : LockMode}
    (standard : Standard db) :
    Moves Table.empty (chainLocked ((dbHash db key * ptrSz : Nat) + db.hashoff) mode)
      (dbFindAndLock fuel db key mode)
      fun r => Standard r.2 ∧ r.2.chainoff = (dbHash db key * ptrSz : Nat) + db.hashoff := by
  refine ⟨?_, fun _ => ?_⟩
  · intro b inside f b' holds
    exact absurd rfl holds
  apply moves_bind moves_readptr
  intro r₁ kept₁
  apply moves_bind moves_findLoop
  intro r₂ kept₂
  have kept := kept₁.trans kept₂
  exact moves_ret
    ⟨⟨kept.hashoff.trans standard.hashoff, kept.nhash.trans standard.nhash⟩, kept.chainoff⟩

/-- Unlocking the chain leaves no lock. -/
theorem moves_unlockChain {off : Int} {mode : LockMode} :
    Moves (chainLocked off mode) Table.empty (.unlock .idx (byteAt off) : DbProg Unit)
      fun _ => True :=
  ⟨trivial, fun _ => ⟨Table.set_set_none fun _ _ => rfl, trivial⟩⟩

/-- `db_fetch` locks in order and unlocks everything. -/
theorem moves_fetch {fuel : Nat} {key : Bytes} (standard : Standard db) :
    Moves Table.empty Table.empty (dbFetch fuel db key) fun r => Standard r.2 := by
  apply moves_bind (moves_findAndLock standard)
  rintro ⟨rc, db₁⟩ ⟨standard₁, chain⟩
  have found : ∀ {held : Table File}, Moves held held (fetchFound db₁ rc)
      fun r => Kept db₁ r.2 := by
    intro held
    unfold fetchFound
    split
    · exact moves_ret ⟨rfl, rfl, rfl⟩
    · apply moves_bind moves_readdat
      intro r kept
      exact moves_ret ⟨kept.chainoff, kept.hashoff, kept.nhash⟩
  apply moves_bind found
  rintro ⟨ptr, db₂⟩ kept
  rw [← chain, ← kept.chainoff]
  apply moves_bind moves_unlockChain
  intro _ _
  exact moves_ret (standard₁.kept kept)

/-- `db_delete` locks in order and unlocks everything. -/
theorem moves_delete {fuel : Nat} {key : Bytes} (standard : Standard db) :
    Moves Table.empty Table.empty (dbDelete fuel db key) fun r => Standard r.2 := by
  have low := chain_low standard key .write
  apply moves_bind (moves_findAndLock standard)
  rintro ⟨rc, db₁⟩ ⟨standard₁, chain⟩
  have found : ∀ {held : Table File}, Low held → Moves held held (deleteFound db₁ rc)
      fun r => Kept db₁ r.2 := by
    intro held low
    unfold deleteFound
    split
    · apply moves_bind (moves_dodelete low)
      intro db₂ kept
      exact moves_ret ⟨kept.chainoff, kept.hashoff, kept.nhash⟩
    · exact moves_ret ⟨rfl, rfl, rfl⟩
  apply moves_bind (found low)
  rintro ⟨rc', db₂⟩ kept
  rw [← chain, ← kept.chainoff]
  apply moves_bind moves_unlockChain
  intro _ _
  exact moves_ret (standard₁.kept kept)

/-- `db_store` locks in order and unlocks everything. -/
theorem moves_store {fuel : Nat} {key data : Bytes} {flag : Int} (standard : Standard db) :
    Moves Table.empty Table.empty (dbStore fuel db key data flag) fun r => Standard r.2 := by
  have low := chain_low standard key .write
  unfold dbStore
  split
  · exact moves_ret standard
  · apply moves_bind moves_errDumpIf
    intro _ _
    apply moves_bind (moves_findAndLock standard)
    rintro ⟨rc, db₁⟩ ⟨standard₁, chain⟩
    have found : ∀ {held : Table File}, Low held →
        Moves held held (storeFound fuel db₁ key data flag rc) fun r => Kept db₁ r.2 := by
      intro held low
      unfold storeFound
      split
      · exact moves_storeAbsent low standard₁.nhash
      · exact moves_storePresent low standard₁.nhash
    apply moves_bind (found low)
    rintro ⟨rc', db₂⟩ kept
    rw [← chain, ← kept.chainoff]
    apply moves_bind moves_unlockChain
    intro _ _
    exact moves_ret (standard₁.kept kept)

/-- `db_nextrec` locks in order and unlocks everything. -/
theorem moves_nextrec {fuel : Nat} (standard : Standard db) :
    Moves Table.empty Table.empty (dbNextrec fuel db) fun r => Standard r.2 := by
  have low : Low Table.empty := fun f b holds => absurd rfl holds
  apply moves_bind (moves_lock low byteRank_free)
  intro _ _
  apply moves_bind moves_nextrecLoop
  rintro ⟨some_, db₁⟩ kept₁
  have found : ∀ {held : Table File}, Moves held held (nextrecFound db₁ some_)
      fun r => Kept db₁ r.2 := by
    intro held
    unfold nextrecFound
    split
    · apply moves_bind moves_readdat
      intro r kept
      exact moves_ret ⟨kept.chainoff, kept.hashoff, kept.nhash⟩
    · exact moves_ret (Kept.refl db₁)
  apply moves_bind found
  intro r kept₂
  apply moves_bind (moves_unlock low byteRank_free)
  intro _ _
  exact moves_ret (standard.kept (kept₁.trans kept₂))

/-- Every request locks in order and unlocks everything. -/
theorem moves_request {fuel : Nat} {request : Request} (standard : Standard db) :
    Moves Table.empty Table.empty (dbRequest fuel db request) fun r => Standard r.2 := by
  cases request with
  | fetch key => exact moves_bind (moves_fetch standard) fun _ kept => moves_ret kept
  | store key data flag => exact moves_bind (moves_store standard) fun _ kept => moves_ret kept
  | delete key => exact moves_bind (moves_delete standard) fun _ kept => moves_ret kept

/-- Every call keeps the order of locks and returns with none. -/
theorem moves_call {fuel : Nat} {call : Call} (standard : Standard db) :
    Moves Table.empty Table.empty (dbCall fuel db call) fun r => Standard r.2 := by
  cases call with
  | request request => exact moves_request standard
  | rewind => exact moves_ret ⟨standard.hashoff, standard.nhash⟩
  | nextrec => exact moves_bind (moves_nextrec standard) fun _ kept => moves_ret kept

/-- A process that makes calls keeps the order of locks, and returns from each with none. -/
theorem moves_session {fuel : Nat} {calls : List Call} (standard : Standard db) :
    Moves Table.empty Table.empty (session fuel db calls) fun _ => True := by
  induction calls generalizing db with
  | nil => exact moves_ret trivial
  | cons call calls rest =>
    apply moves_bind (moves_call standard)
    rintro ⟨result, db₁⟩ standard₁
    exact ⟨fun _ => rfl, fun _ => rest standard₁⟩

end Rules

/-! ## Pools of processes -/

/-- In every state that processes on one database reach, whatever its files contain, no
processes wait for locks of each other in a circle, and a process whose call has returned
holds no lock on either file. -/
theorem locks_ordered_and_released {P : Type} [DecidableEq P] (fuel : Nat)
    (files : File → Bytes) (calls : P → List Call) (c : Config P File Failure Note Unit)
    (reaches : Reaches (pool fuel files calls) c) :
    (∀ p, ¬ Relation.TransGen (Waits c) p p) ∧
      ∀ p call result rest,
        c.procs p = .running (.op (.note (.returned call result)) rest) →
          ∀ file b, c.world.locks p file b = none := by
  have start : PoolOrdered byteRank IsReturn (fun _ held => held = Table.empty ∧ True)
      (pool fuel files calls) := by
    intro p prog here
    cases here
    exact moves_session ⟨rfl, rfl⟩
  have ordered := poolOrdered_reaches start reaches
  refine ⟨ordered_no_cycle ordered, ?_⟩
  intro p call result rest here file b
  have none_held : c.world.locks p = Table.empty := ordered.clear_at here trivial
  rw [none_held]
  rfl

/-- Two processes that delete one key: the first has locked the chain and the second waits
for it, in no circle. -/
theorem locks_two_writers :
    ∃ c,
      Reaches (pool 1 (fun _ => []) fun _ : Fin 2 => [.request (.delete ⟨[97], by decide⟩)]) c ∧
      Waits c 1 0 ∧ (∀ p, ¬ Relation.TransGen (Waits c) p p) ∧
      ∀ p call result rest,
        c.procs p = .running (.op (.note (.returned call result)) rest) →
          ∀ file b, c.world.locks p file b = none := by
  have first :
      Step (pool 1 (fun _ => []) fun _ : Fin 2 => [.request (.delete ⟨[97], by decide⟩)]) _ :=
    .act 0 rfl fun _ _ _ _ => trivial
  have reached := Relation.ReflTransGen.single first
  refine ⟨_, reached, ?_, locks_ordered_and_released _ _ _ _ reached⟩
  exact ⟨.idx, .write, byteAt 686, _, 686, rfl, by decide, by decide, fun free => free⟩

end Db

end CodeLearning
