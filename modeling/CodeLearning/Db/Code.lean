import CodeLearning.Lib.Decimal
import CodeLearning.Lib.FileProgram
import Mathlib.Data.FinEnum

/-!
# The database library

The functions of `db.c` as programs over the index file and the data file. `DB` holds the
fields of the handle; a function that takes a `DB *` takes the handle and returns it changed.
`off_t` is `Int`, `size_t` and the `int` lengths are `Nat`. Buffers hold the C string in them.
The loops that follow a list are bounded by `fuel`: with any bound they take the steps the
source takes, and a loop that uses it up hangs.

System calls other than a read past the end of a file and an `lseek` before its start do not
fail, and writes are complete. `sprintf` into `idxbuf` from `idxbuf` itself, which
`_db_dodelete` causes, acts as if the key had been copied first; a text longer than `idxbuf`
is cut off by no one and then fails the length check.
-/

namespace CodeLearning

namespace Db

open FileProgram Decimal

/-! ## Constants -/

/-- Width of a record length in an index record. -/
def idxlenSz : Nat := 4

/-- `SEP`, `':'`. -/
def sep : UInt8 := 58

/-- `NEWLINE`, `'\n'`. -/
def newline : UInt8 := 10

/-- Width of a pointer field. -/
def ptrSz : Nat := 7

/-- Largest offset that a pointer field holds. -/
def ptrMax : Nat := 999999

/-- Default size of the hash table. -/
def nhashDef : Nat := 137

/-- Offset of the pointer to the free list. -/
def freeOff : Nat := 0

/-- Offset of the hash table. -/
def hashOff : Nat := ptrSz

/-- Least length of an index record. -/
def idxlenMin : Nat := 6

/-- Greatest length of an index record. -/
def idxlenMax : Nat := 1024

/-- Least length of a data record, its newline included. -/
def datlenMin : Nat := 2

/-- Greatest length of a data record, its newline included. -/
def datlenMax : Nat := 1024

/-- Store a new key only. -/
def dbInsert : Int := 1

/-- Replace the data of a present key only. -/
def dbReplace : Int := 2

/-- Insert or replace. -/
def dbStoreFlag : Int := 3

/-! ## Data -/

/-- A string of a caller: bytes without a NUL. -/
structure CString where
  /-- The bytes before the NUL. -/
  bytes : Bytes
  /-- The NUL ends the string. -/
  noNul : 0 ∉ bytes
  deriving DecidableEq

/-- Part of a buffer before its first NUL. -/
def cstr (buf : Bytes) : Bytes := buf.takeWhile (· ≠ 0)

/-- The two files of a database. -/
inductive File where
  /-- The index file. -/
  | idx
  /-- The data file. -/
  | dat
  deriving DecidableEq

/-- How a process ends on an error. -/
inductive Failure where
  /-- `err_dump` with its text. -/
  | errDump (text : String)
  /-- `err_quit` with its text and the pointer printed after it. -/
  | errQuit (text : String) (ptr : Int)
  deriving DecidableEq

/-- A call that is about one key. -/
inductive Request where
  /-- `db_fetch`. -/
  | fetch (key : CString)
  /-- `db_store`. -/
  | store (key data : CString) (flag : Int)
  /-- `db_delete`. -/
  | delete (key : CString)
  deriving DecidableEq

/-- A call of the library. -/
inductive Call where
  /-- `db_fetch`, `db_store` or `db_delete`. -/
  | request (request : Request)
  /-- `db_rewind`. -/
  | rewind
  /-- `db_nextrec`. -/
  | nextrec
  deriving DecidableEq

/-- What a call returns. -/
inductive Result where
  /-- Data of `db_fetch`, or `NULL`. -/
  | data (value : Option Bytes)
  /-- Status of `db_store` or `db_delete`. -/
  | status (rc : Int)
  /-- `db_rewind` returns nothing. -/
  | done
  /-- Key and data of `db_nextrec`, or `NULL`. -/
  | record (found : Option (Bytes × Bytes))
  deriving DecidableEq

/-- Marks in the log of a run. -/
inductive Note where
  /-- `_db_findfree` has taken the record at the offset off the free list. -/
  | took (off : Int)
  /-- `_db_dodelete` has put the record at the offset on the free list. -/
  | freed (off : Int)
  /-- A call has returned. -/
  | returned (call : Call) (result : Result)
  deriving DecidableEq

/-- A program of the library. -/
abbrev DbProg (α : Type) := Prog File Failure Note α

/-- Fields of the handle. -/
structure DB where
  /-- File offset of `idxfd`. -/
  idxpos : Nat
  /-- Index buffer. -/
  idxbuf : Bytes
  /-- Data buffer. -/
  datbuf : Bytes
  /-- Offset of the index record; the key is at `idxoff + PTR_SZ + IDXLEN_SZ`. -/
  idxoff : Int
  /-- Length of the index record. -/
  idxlen : Nat
  /-- Offset of the data record. -/
  datoff : Int
  /-- Length of the data record, its newline included. -/
  datlen : Nat
  /-- Pointer in the index record to the next one. -/
  ptrval : Int
  /-- Offset of the pointer that points to the index record. -/
  ptroff : Int
  /-- Offset of the head of the hash chain. -/
  chainoff : Int
  /-- Offset of the hash table. -/
  hashoff : Int
  /-- Size of the hash table. -/
  nhash : Nat
  /-- Deletes of a present key. -/
  cntDelok : UInt64
  /-- Deletes of an absent key. -/
  cntDelerr : UInt64
  /-- Fetches of a present key. -/
  cntFetchok : UInt64
  /-- Fetches of an absent key. -/
  cntFetcherr : UInt64
  /-- Records that `db_nextrec` returned. -/
  cntNextrec : UInt64
  /-- Stores that appended a new key. -/
  cntStor1 : UInt64
  /-- Stores that reused a free record. -/
  cntStor2 : UInt64
  /-- Stores that replaced data of another length. -/
  cntStor3 : UInt64
  /-- Stores that replaced data in place. -/
  cntStor4 : UInt64
  /-- Stores refused by their flag. -/
  cntStorerr : UInt64
  deriving DecidableEq

/-- `_db_alloc`, and the two fields that `db_open` sets first. -/
def dbAlloc : DB where
  idxpos := 0
  idxbuf := []
  datbuf := []
  idxoff := 0
  idxlen := 0
  datoff := 0
  datlen := 0
  ptrval := 0
  ptroff := 0
  chainoff := 0
  hashoff := hashOff
  nhash := nhashDef
  cntDelok := 0
  cntDelerr := 0
  cntFetchok := 0
  cntFetcherr := 0
  cntNextrec := 0
  cntStor1 := 0
  cntStor2 := 0
  cntStor3 := 0
  cntStor4 := 0
  cntStorerr := 0

/-- `whence` of a positioned write. -/
inductive Whence where
  /-- `SEEK_SET`. -/
  | set
  /-- `SEEK_END`. -/
  | end_

/-! ## Steps shared by the functions -/

/-- `err_dump` when the condition holds. -/
def errDumpIf (condition : Prop) [Decidable condition] (text : String) : DbProg Unit :=
  if condition then .abort (.errDump text) else .ret ()

/-- `err_quit` when the pointer does not fit its field. -/
def errQuitUnlessPtr (ptr : Int) (text : String) : DbProg Unit :=
  if ptr < 0 ∨ ptr > ptrMax then .abort (.errQuit text ptr) else .ret ()

/-- Conversion to `size_t`. -/
def sizeT (n : Int) : Nat := (n % 2 ^ 64).toNat

/-- `lseek(db->idxfd, offset, SEEK_SET)`, which fails before the start of the file. -/
def seekIdx (db : DB) (offset : Int) (text : String) : DbProg DB :=
  if offset < 0 then .abort (.errDump text) else .ret { db with idxpos := offset.toNat }

/-- `read(db->idxfd, buf, len)`. -/
def readIdx (db : DB) (len : Nat) : DbProg (Bytes × DB) := do
  let buf ← .read .idx db.idxpos len
  return (buf, { db with idxpos := db.idxpos + buf.length })

/-- `write(db->idxfd, buf, len)`. -/
def writeIdx (db : DB) (buf : Bytes) : DbProg DB := do
  .write .idx db.idxpos buf
  return { db with idxpos := db.idxpos + buf.length }

/-- A lock or an unlock that only an append makes. -/
def whenEnd (whence : Whence) (prog : DbProg Unit) : DbProg Unit :=
  match whence with
  | .set => .ret ()
  | .end_ => prog

/-- Target of `lseek(fd, offset, whence)`. -/
def seekTo (file : File) (offset : Int) (whence : Whence) (text : String) : DbProg Int :=
  match whence with
  | .set => if offset < 0 then .abort (.errDump text) else .ret offset
  | .end_ => do
    let size ← .size file
    return (size : Int) + offset

/-- The byte of the index file that is locked for a list. -/
def byteAt (off : Int) : Range := ⟨off.toNat, 1⟩

/-- The index file after its hash table. -/
def tailRange (db : DB) : Range := ⟨(db.nhash + 1) * ptrSz + 1, 0⟩

/-- A whole file. -/
def wholeFile : Range := ⟨0, 0⟩

/-! ## Reading -/

/-- `hval += c * i`, with `char` signed and `hval` an `unsigned long`. -/
def hashStep (hval i : Nat) (c : UInt8) : Nat :=
  (((hval : Int) + c.toInt8.toInt * i) % 2 ^ 64).toNat

/-- The loop of `_db_hash`. -/
def hashLoop : Bytes → Nat → Nat → Nat
  | [], _, hval => hval
  | c :: key, i, hval => hashLoop key (i + 1) (hashStep hval i c)

/-- `_db_hash`. -/
def dbHash (db : DB) (key : Bytes) : Nat := hashLoop key 1 0 % db.nhash

/-- `_db_readptr`. -/
def dbReadptr (db : DB) (offset : Int) : DbProg (Int × DB) := do
  let db ← seekIdx db offset "_db_readptr: lseek error to ptr field"
  let (asciiptr, db) ← readIdx db ptrSz
  errDumpIf (asciiptr.length ≠ ptrSz) "_db_readptr: read error of ptr field"
  return (atol asciiptr, db)

/-- `strchr` for `SEP`: what stands before it and after it. -/
def strchrSep (text : Bytes) : Option (Bytes × Bytes) :=
  match text.dropWhile (· ≠ sep) with
  | [] => none
  | _ :: after => some (text.takeWhile (· ≠ sep), after)

/-- Parts of an index record after its two fixed fields: key, data offset, data length. -/
structure IdxFields where
  /-- The key. -/
  key : Bytes
  /-- Offset of the data record. -/
  datoff : Int
  /-- Length of the data record. -/
  datlen : Nat
  deriving DecidableEq

/-- The text of an index record as `_db_readidx` takes it apart; both missing separators are
reported with the same text. -/
def parseIdx (line : Bytes) : Except String IdxFields :=
  match strchrSep (cstr line) with
  | none => .error "_db_readidx: missing second separator"
  | some (key, ptr1) =>
    match strchrSep ptr1 with
    | none => .error "_db_readidx: missing second separator"
    | some (off, ptr2) =>
      if sep ∈ ptr2 then .error "_db_readidx: too many separators"
      else if atol off < 0 then .error "_db_readidx: starting offset < 0"
      else if sizeT (atol ptr2) = 0 ∨ sizeT (atol ptr2) > datlenMax then
        .error "_db_readidx: invalid length"
      else .ok { key := key, datoff := atol off, datlen := sizeT (atol ptr2) }

/-- The seek of `_db_readidx`: to the offset, or nowhere for `0`. -/
def seekRecord (db : DB) (offset : Int) : DbProg DB :=
  if offset = 0 then .ret db else seekIdx db offset "_db_readidx: lseek error"

/-- `_db_readidx` once the two fixed fields are read. -/
def readidxLine (db : DB) : DbProg (Int × DB) := do
  errDumpIf (db.idxlen < idxlenMin ∨ db.idxlen > idxlenMax) "_db_readidx: invalid length"
  let (line, db) ← readIdx db db.idxlen
  errDumpIf (line.length ≠ db.idxlen) "_db_readidx: read error of index record"
  errDumpIf (line.getLast? ≠ some newline) "_db_readidx: missing newline"
  match parseIdx line.dropLast with
  | .error text => .abort (.errDump text)
  | .ok fields =>
    return (db.ptrval,
      { db with idxbuf := fields.key, datoff := fields.datoff, datlen := fields.datlen })

/-- `_db_readidx`. -/
def dbReadidx (db : DB) (offset : Int) : DbProg (Int × DB) := do
  let db ← seekRecord db offset
  let db := { db with idxoff := db.idxpos }
  let (fixed, db) ← readIdx db (ptrSz + idxlenSz)
  if fixed.length ≠ ptrSz + idxlenSz then
    if fixed.length = 0 ∧ offset = 0 then
      return (-1, db)
    else
      .abort (.errDump "_db_readidx: readv error of index record")
  else
    readidxLine
      { db with ptrval := atol (fixed.take ptrSz), idxlen := sizeT (atol (fixed.drop ptrSz)) }

/-- `_db_readdat`. -/
def dbReaddat (db : DB) : DbProg (Bytes × DB) := do
  errDumpIf (db.datoff < 0) "_db_readdat: lseek error"
  let buf ← .read .dat db.datoff.toNat db.datlen
  errDumpIf (buf.length ≠ db.datlen) "_db_readdat: read error"
  errDumpIf (buf.getLast? ≠ some newline) "_db_readdat: missing newline"
  return (cstr buf.dropLast, { db with datbuf := cstr buf.dropLast })

/-- The loop of `_db_find_and_lock`. -/
def findLoop : Nat → DB → Bytes → Int → DbProg (Int × DB)
  | 0, _, _, _ => .hang
  | fuel + 1, db, key, offset =>
    if offset = 0 then .ret (0, db)
    else do
      let (nextoffset, db) ← dbReadidx db offset
      if db.idxbuf = key then
        return (offset, db)
      else
        findLoop fuel { db with ptroff := offset } key nextoffset

/-- `_db_find_and_lock`. -/
def dbFindAndLock (fuel : Nat) (db : DB) (key : Bytes) (mode : LockMode) :
    DbProg (Int × DB) := do
  let chainoff : Int := (dbHash db key * ptrSz : Nat) + db.hashoff
  let db := { db with chainoff := chainoff, ptroff := chainoff }
  .lock .idx mode (byteAt db.chainoff)
  let (offset, db) ← dbReadptr db db.ptroff
  let (offset, db) ← findLoop fuel db key offset
  return (if offset = 0 then -1 else 0, db)

/-- `db_fetch` between the lock of the chain and its unlock. -/
def fetchFound (db : DB) (rc : Int) : DbProg (Option Bytes × DB) :=
  if rc < 0 then .ret (none, { db with cntFetcherr := db.cntFetcherr + 1 })
  else do
    let (ptr, db) ← dbReaddat db
    return (some ptr, { db with cntFetchok := db.cntFetchok + 1 })

/-- `db_fetch`. -/
def dbFetch (fuel : Nat) (db : DB) (key : Bytes) : DbProg (Option Bytes × DB) := do
  let (rc, db) ← dbFindAndLock fuel db key .read
  let (ptr, db) ← fetchFound db rc
  .unlock .idx (byteAt db.chainoff)
  return (ptr, db)

/-! ## Writing -/

/-- `_db_writedat`. -/
def dbWritedat (db : DB) (data : Bytes) (offset : Int) (whence : Whence) : DbProg DB := do
  whenEnd whence (.lock .dat .write wholeFile)
  let datoff ← seekTo .dat offset whence "_db_writedat: lseek error"
  let db := { db with datoff := datoff, datlen := data.length + 1 }
  .write .dat db.datoff.toNat (data ++ [newline])
  whenEnd whence (.unlock .dat wholeFile)
  return db

/-- Text of an index record from its key on. -/
def idxText (key : Bytes) (datoff : Int) (datlen : Nat) : Bytes :=
  key ++ [sep] ++ lld datoff ++ [sep] ++ decimal datlen ++ [newline]

/-- `_db_writeidx`. -/
def dbWriteidx (db : DB) (key : Bytes) (offset : Int) (whence : Whence) (ptrval : Int) :
    DbProg DB := do
  let db := { db with ptrval := ptrval }
  errQuitUnlessPtr ptrval "_db_writeidx: invalid ptr: "
  let db := { db with idxbuf := idxText key db.datoff db.datlen }
  let len := db.idxbuf.length
  errDumpIf (len < idxlenMin ∨ len > idxlenMax) "_db_writeidx: invalid length"
  let asciiptrlen := padLeft ptrSz (lld ptrval) ++ padLeft idxlenSz (decimal len)
  whenEnd whence (.lock .idx .write (tailRange db))
  let idxoff ← seekTo .idx offset whence "_db_writeidx: lseek error"
  let db ← writeIdx { db with idxoff := idxoff, idxpos := idxoff.toNat } (asciiptrlen ++ db.idxbuf)
  whenEnd whence (.unlock .idx (tailRange db))
  return db

/-- `_db_writeptr`. -/
def dbWriteptr (db : DB) (offset ptrval : Int) : DbProg DB := do
  errQuitUnlessPtr ptrval "_db_writeptr: invalid ptr: "
  let asciiptr := padLeft ptrSz (lld ptrval)
  let db ← seekIdx db offset "_db_writeptr: lseek error to ptr field"
  writeIdx db asciiptr

/-- `_db_dodelete`. The data length that `_db_readidx` accepts is positive. -/
def dbDodelete (db : DB) : DbProg DB := do
  let db :=
    { db with
      datbuf := List.replicate (db.datlen - 1) space
      idxbuf := List.replicate db.idxbuf.length space }
  .lock .idx .write (byteAt freeOff)
  let db ← dbWritedat db db.datbuf db.datoff .set
  let (freeptr, db) ← dbReadptr db freeOff
  let saveptr := db.ptrval
  let db ← dbWriteidx db db.idxbuf db.idxoff .set freeptr
  let db ← dbWriteptr db freeOff db.idxoff
  let db ← dbWriteptr db db.ptroff saveptr
  .note (.freed db.idxoff)
  .unlock .idx (byteAt freeOff)
  return db

/-- `db_delete` between the lock of the chain and its unlock. -/
def deleteFound (db : DB) (rc : Int) : DbProg (Int × DB) :=
  if rc = 0 then do
    let db ← dbDodelete db
    return (0, { db with cntDelok := db.cntDelok + 1 })
  else .ret (-1, { db with cntDelerr := db.cntDelerr + 1 })

/-- `db_delete`. -/
def dbDelete (fuel : Nat) (db : DB) (key : Bytes) : DbProg (Int × DB) := do
  let (rc, db) ← dbFindAndLock fuel db key .write
  let (rc, db) ← deleteFound db rc
  .unlock .idx (byteAt db.chainoff)
  return (rc, db)

/-- The loop of `_db_findfree`, with the offset it stops at and the one before. -/
def findfreeLoop : Nat → DB → Nat → Nat → Int → Int → DbProg (Int × Int × DB)
  | 0, _, _, _, _, _ => .hang
  | fuel + 1, db, keylen, datlen, saveoffset, offset =>
    if offset = 0 then .ret (0, saveoffset, db)
    else do
      let (nextoffset, db) ← dbReadidx db offset
      if db.idxbuf.length = keylen ∧ db.datlen = datlen then
        return (offset, saveoffset, db)
      else
        findfreeLoop fuel db keylen datlen offset nextoffset

/-- `_db_findfree` after its loop: unlink the record found. -/
def findfreeTake (db : DB) (saveoffset offset : Int) : DbProg (Int × DB) :=
  if offset = 0 then .ret (-1, db)
  else do
    let db ← dbWriteptr db saveoffset db.ptrval
    .note (.took db.idxoff)
    return (0, db)

/-- `_db_findfree`. -/
def dbFindfree (fuel : Nat) (db : DB) (keylen datlen : Nat) : DbProg (Int × DB) := do
  .lock .idx .write (byteAt freeOff)
  let (offset, db) ← dbReadptr db freeOff
  let (offset, saveoffset, db) ← findfreeLoop fuel db keylen datlen freeOff offset
  let (rc, db) ← findfreeTake db saveoffset offset
  .unlock .idx (byteAt freeOff)
  return (rc, db)

/-- The three writes with which `db_store` appends a record and links it in. -/
def storeAppend (db : DB) (key data : Bytes) (ptrval : Int) : DbProg DB := do
  let db ← dbWritedat db data 0 .end_
  let db ← dbWriteidx db key 0 .end_ ptrval
  dbWriteptr db db.chainoff db.idxoff

/-- The three writes with which `db_store` fills a record taken off the free list. -/
def storeReuse (db : DB) (key data : Bytes) (ptrval : Int) : DbProg DB := do
  let db ← dbWritedat db data db.datoff .set
  let db ← dbWriteidx db key db.idxoff .set ptrval
  dbWriteptr db db.chainoff db.idxoff

/-- `db_store` of a key that is not found. -/
def storeAbsent (fuel : Nat) (db : DB) (key data : Bytes) (flag : Int) :
    DbProg (Int × DB) :=
  if flag = dbReplace then .ret (-1, { db with cntStorerr := db.cntStorerr + 1 })
  else do
    let (ptrval, db) ← dbReadptr db db.chainoff
    let (rc, db) ← dbFindfree fuel db key.length (data.length + 1)
    if rc < 0 then do
      let db ← storeAppend db key data ptrval
      return (0, { db with cntStor1 := db.cntStor1 + 1 })
    else do
      let db ← storeReuse db key data ptrval
      return (0, { db with cntStor2 := db.cntStor2 + 1 })

/-- `db_store` of a key that is found. -/
def storePresent (db : DB) (key data : Bytes) (flag : Int) : DbProg (Int × DB) :=
  if flag = dbInsert then .ret (1, { db with cntStorerr := db.cntStorerr + 1 })
  else if data.length + 1 ≠ db.datlen then do
    let db ← dbDodelete db
    let (ptrval, db) ← dbReadptr db db.chainoff
    let db ← storeAppend db key data ptrval
    return (0, { db with cntStor3 := db.cntStor3 + 1 })
  else do
    let db ← dbWritedat db data db.datoff .set
    return (0, { db with cntStor4 := db.cntStor4 + 1 })

/-- `db_store` between the lock of the chain and its unlock. -/
def storeFound (fuel : Nat) (db : DB) (key data : Bytes) (flag rc : Int) :
    DbProg (Int × DB) :=
  if rc < 0 then storeAbsent fuel db key data flag else storePresent db key data flag

/-- `db_store`. -/
def dbStore (fuel : Nat) (db : DB) (key data : Bytes) (flag : Int) : DbProg (Int × DB) :=
  if flag ≠ dbInsert ∧ flag ≠ dbReplace ∧ flag ≠ dbStoreFlag then .ret (-1, db)
  else do
    errDumpIf (data.length + 1 < datlenMin ∨ data.length + 1 > datlenMax)
      "db_store: invalid data length"
    let (rc, db) ← dbFindAndLock fuel db key .write
    let (rc, db) ← storeFound fuel db key data flag rc
    .unlock .idx (byteAt db.chainoff)
    return (rc, db)

/-! ## Opening and reading in sequence -/

/-- `db_rewind`. -/
def dbRewind (db : DB) : DB :=
  { db with idxpos := (db.nhash + 1) * ptrSz + 1, idxoff := ((db.nhash + 1) * ptrSz + 1 : Nat) }

/-- The index file that `db_open` writes: null pointers of the free list and of every chain. -/
def emptyIndex : Bytes :=
  (List.replicate (nhashDef + 1) (padLeft ptrSz (decimal 0))).flatten ++ [newline]

/-- Initialisation in `db_open`: write the hash table when the index file is empty. -/
def initIndex : DbProg Unit := do
  .lock .idx .write wholeFile
  let size ← .size .idx
  if size = 0 then .write .idx 0 emptyIndex else .ret ()
  .unlock .idx wholeFile

/-- `db_open` once both files are open; `create` when `oflag` has `O_CREAT` and `O_TRUNC`. -/
def dbOpen (create : Bool) : DbProg DB := do
  if create then initIndex else .ret ()
  return dbRewind dbAlloc

/-- The loop of `db_nextrec`, which passes over free records; whether it found a record. -/
def nextrecLoop : Nat → DB → DbProg (Bool × DB)
  | 0, _ => .hang
  | fuel + 1, db => do
    let (rc, db) ← dbReadidx db 0
    if rc < 0 then
      return (false, db)
    else if ∀ c ∈ db.idxbuf, c = space then
      nextrecLoop fuel db
    else
      return (true, db)

/-- `db_nextrec` after its loop: the key, which is copied out for a caller that asks for it,
and the data. -/
def nextrecFound (db : DB) (found : Bool) : DbProg (Option (Bytes × Bytes) × DB) :=
  if found then do
    let (ptr, db) ← dbReaddat db
    return (some (db.idxbuf, ptr), { db with cntNextrec := db.cntNextrec + 1 })
  else .ret (none, db)

/-- `db_nextrec`. -/
def dbNextrec (fuel : Nat) (db : DB) : DbProg (Option (Bytes × Bytes) × DB) := do
  .lock .idx .read (byteAt freeOff)
  let (found, db) ← nextrecLoop fuel db
  let (ptr, db) ← nextrecFound db found
  .unlock .idx (byteAt freeOff)
  return (ptr, db)

/-! ## Callers -/

/-- One call about a key. -/
def dbRequest (fuel : Nat) (db : DB) : Request → DbProg (Result × DB)
  | .fetch key => do
    let (ptr, db) ← dbFetch fuel db key.bytes
    return (.data ptr, db)
  | .store key data flag => do
    let (rc, db) ← dbStore fuel db key.bytes data.bytes flag
    return (.status rc, db)
  | .delete key => do
    let (rc, db) ← dbDelete fuel db key.bytes
    return (.status rc, db)

/-- One call through a handle. -/
def dbCall (fuel : Nat) (db : DB) : Call → DbProg (Result × DB)
  | .request request => dbRequest fuel db request
  | .rewind => .ret (.done, dbRewind db)
  | .nextrec => do
    let (found, db) ← dbNextrec fuel db
    return (.record found, db)

/-- A process that makes calls through one handle, one after the other. -/
def session (fuel : Nat) : DB → List Call → DbProg Unit
  | _, [] => .ret ()
  | db, call :: calls => do
    let (result, db) ← dbCall fuel db call
    .note (.returned call result)
    session fuel db calls

/-- The handle that `db_open` returns. -/
def opened : DB := dbRewind dbAlloc

/-- Processes that have each opened the database and make their calls. -/
def pool {P : Type} (fuel : Nat) (files : File → Bytes) (calls : P → List Call) :
    Config P File Failure Note Unit where
  world := { files := files, locks := fun _ _ _ => none, log := [] }
  procs p := .running (session fuel opened (calls p))

end Db

end CodeLearning
