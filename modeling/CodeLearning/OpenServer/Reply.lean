import CodeLearning.Lib.ByteFile
import CodeLearning.Lib.CInt
import CodeLearning.OpenServer.Request

/-!
# The reply of the open server

A reply is the text of an error, if there is one, a null byte and a status byte; a descriptor
travels beside a status of `0`. `send_err` and `send_fd` write a reply to a stream, and
`recv_fd` reads it in whatever pieces the kernel delivers, handing the text to a function of
its caller. What the kernel does is the input of both sides. `send_err` keeps the length of the
text in an `int`, which is another number for a text of more than `INT_MAX` bytes, and `send_fd`
takes the negative of an `int`, which overflows for the least one.
-/

namespace CodeLearning.OpenServer

open CInt

/-! ## The sender -/

/-- What the kernel does for the sender. -/
structure Sender where
  /-- Result of `write` while this many bytes are left. -/
  write : Nat → Int
  /-- No more is written than there is. -/
  write_le : ∀ nleft, write nleft ≤ nleft
  /-- Whether `malloc` finds memory for a control message. -/
  malloc : Bool
  /-- Result of `sendmsg`. -/
  sendmsg : Int

/-- The loop of `writen`: its result and the bytes written. The count is of `n` bytes, of which
`ptr` are left. -/
def writenLoop (kernel : Sender) (n : Nat) (ptr : Bytes) : Int × Bytes :=
  if ptr = [] then (n, [])
  else if kernel.write ptr.length < 0 then
    if ptr.length = n then (-1, []) else (n - ptr.length, [])
  else if kernel.write ptr.length = 0 then (n - ptr.length, [])
  else
    let (count, written) := writenLoop kernel n (ptr.drop (kernel.write ptr.length).toNat)
    (count, ptr.take (kernel.write ptr.length).toNat ++ written)
termination_by ptr.length
decreasing_by
  have some_ : 0 < ptr.length := List.length_pos_iff.mpr ‹_›
  rw [List.length_drop]
  omega

/-- `writen`. -/
def writen (kernel : Sender) (ptr : Bytes) : Int × Bytes := writenLoop kernel ptr.length ptr

/-- The two bytes of `send_fd`: a null byte and the status, cut to a `char`. -/
def sendFdBuf (fdToSend : Int) : Option Bytes :=
  if fdToSend < 0 then do
    let negative ← checked (-fdToSend)
    let status := UInt8.ofNat (negative % 256).toNat
    return [0, if status = 0 then 1 else status]
  else some [0, 0]

/-- `send_fd`: its result, and the bytes written with the descriptor beside them. -/
def sendFd (kernel : Sender) (fdToSend : Int) : Option (Int × Bytes × Option Int) :=
  if 0 ≤ fdToSend ∧ ¬ kernel.malloc then some (-1, [], none)
  else do
    let buf ← sendFdBuf fdToSend
    let control := if fdToSend < 0 then none else some fdToSend
    return if kernel.sendmsg ≠ 2 then (-1, buf.take kernel.sendmsg.toNat, control)
      else (0, buf, control)

/-- `send_err` once the text is written. -/
def sendStatus (kernel : Sender) (errcode : Int) : Option (Int × Bytes) := do
  let (rc, written, _) ← sendFd kernel (if errcode ≥ 0 then -1 else errcode)
  return (if rc < 0 then -1 else 0, written)

/-- `send_err` once it has the length `n` of the text: its result and the bytes written. -/
def sendText (kernel : Sender) (errcode : Int) (msg : Bytes) (n : Int) : Option (Int × Bytes) :=
  if n > 0 then
    let (count, text) := writen kernel (msg.take n.toNat)
    if count ≠ n then some (-1, text)
    else do
      let (rc, written) ← sendStatus kernel errcode
      return (rc, text ++ written)
  else sendStatus kernel errcode

/-- `send_err`: its result and the bytes written; `none` when an operation overflows. -/
def sendErr (kernel : Sender) (errcode : Int) (msg : Bytes) : Option (Int × Bytes) :=
  sendText kernel errcode msg (ofSize msg.length)

/-! ## The receiver -/

/-- One turn of the loop of `recv_fd` up to `recvmsg`. -/
inductive Received where
  /-- `malloc` fails. -/
  | noMemory
  /-- `recvmsg` fails. -/
  | failed
  /-- Bytes, none when the server closed the connection, and a descriptor beside them. -/
  | data (bytes : Bytes) (control : Option Int)

/-- How the scan of a buffer ends. -/
inductive Scan where
  /-- `err_dump`. -/
  | dumped (text : String)
  /-- The bytes of the text, the status and the descriptor. -/
  | scanned (nr : Nat) (status newfd : Int)

/-- The scan of `recv_fd`: it stops at the end of the text, which moves when the null byte is
found. -/
def recvScan (buf : Bytes) (control : Option Int) (ptr nr : Nat) (status newfd : Int) : Scan :=
  if ptr < nr then
    if buf[ptr]? = some 0 then
      if ptr + 1 ≠ nr - 1 then .dumped "message format error"
      else
        let status := (buf.getD (ptr + 1) 0).toNat
        if status = 0 then
          match control with
          | none => .dumped "status = 0 but no fd"
          | some fd => recvScan buf control (ptr + 1) (nr - 2) 0 fd
        else recvScan buf control (ptr + 1) (nr - 2) status (-status)
    else recvScan buf control (ptr + 1) nr status newfd
  else .scanned nr status newfd
termination_by nr - ptr

/-- How `recv_fd` ends. -/
inductive RecvEnd where
  /-- It returns. -/
  | returned (fd : Int)
  /-- `err_dump`. -/
  | dumped (text : String)
  /-- It waits for bytes that do not come. -/
  | waits
deriving DecidableEq

/-- The loop of `recv_fd`: how it ends, and what it hands to `userfunc`. -/
def recvLoop (userfunc : Bytes → Int) :
    List Received → (status newfd : Int) → RecvEnd × List Bytes
  | [], _, _ => (.waits, [])
  | .noMemory :: _, _, _ => (.returned (-1), [])
  | .failed :: _, _, _ => (.returned (-1), [])
  | .data buf control :: rest, status, newfd =>
    if buf = [] then (.returned (-1), [])
    else
      match recvScan buf control 0 buf.length status newfd with
      | .dumped text => (.dumped text, [])
      | .scanned nr status newfd =>
        let handed := if nr > 0 then [buf.take nr] else []
        if nr > 0 ∧ userfunc (buf.take nr) ≠ nr then (.returned (-1), handed)
        else if status ≥ 0 then (.returned newfd, handed)
        else
          let (ends, more) := recvLoop userfunc rest status newfd
          (ends, handed ++ more)

/-- `recv_fd`. -/
def recvFd (userfunc : Bytes → Int) (received : List Received) : RecvEnd × List Bytes :=
  recvLoop userfunc received (-1) 0

/-! ## What is on the stream -/

section Sent

variable {kernel : Sender} {n : Nat} {errcode : Int} {ptr msg stream : Bytes}

/-- Unless it stops early, `writen` writes all of its bytes. -/
theorem writenLoop_all (all : (writenLoop kernel n ptr).1 = n) :
    (writenLoop kernel n ptr).2 = ptr := by
  fun_induction writenLoop kernel n ptr with
  | case1 => rfl
  | case2 =>
    simp only at all
    omega
  | case3 ptr some_ =>
    have := List.length_pos_iff.mpr some_
    simp only at all
    omega
  | case4 ptr some_ =>
    have := List.length_pos_iff.mpr some_
    simp only at all
    omega
  | case5 ptr some_ notFailed notZero count written ends rest =>
    rw [ends] at rest
    simp only at all rest ⊢
    rw [rest all, List.take_append_drop]

/-- Status that `send_err` gives an error code. -/
def errorStatus (errcode : Int) : Nat :=
  let code := if errcode ≥ 0 then -1 else errcode
  if (-code) % 256 = 0 then 1 else ((-code) % 256).toNat

/-- A status fits in a byte and is not `0`. -/
theorem errorStatus_bounds (errcode : Int) :
    1 ≤ errorStatus errcode ∧ errorStatus errcode ≤ 255 := by
  unfold errorStatus
  generalize (if errcode ≥ 0 then (-1 : Int) else errcode) = code
  dsimp only
  split
  · omega
  · omega

/-- The bytes of `send_fd` for an error code above the least `int`. -/
theorem sendFdBuf_error (low : -2 ^ 31 < errcode) :
    sendFdBuf (if errcode ≥ 0 then -1 else errcode) =
      some [0, UInt8.ofNat (errorStatus errcode)] := by
  have negative : (if errcode ≥ 0 then (-1 : Int) else errcode) < 0 := by
    split
    · omega
    · omega
  have int : IsInt (-(if errcode ≥ 0 then (-1 : Int) else errcode)) := by
    unfold IsInt intMax
    split
    · omega
    · omega
  unfold errorStatus sendFdBuf
  generalize (if errcode ≥ 0 then (-1 : Int) else errcode) = code at negative int
  rw [if_pos negative, checked_eq int]
  dsimp only
  have zero : UInt8.ofNat (-code % 256).toNat = 0 ↔ -code % 256 = 0 := by
    rw [← UInt8.toNat_inj, UInt8.toNat_ofNat']
    show (-code % 256).toNat % 256 = 0 ↔ _
    omega
  simp only [Option.bind_eq_bind, Option.bind_some, Option.pure_def, zero]
  split
  · rfl
  · rfl

/-- The least `int` has no negative. -/
theorem sendStatus_overflow (kernel : Sender) (least : errcode ≤ -2 ^ 31) :
    sendStatus kernel errcode = none := by
  have negative : ¬ errcode ≥ 0 := by omega
  have overflows : ¬ IsInt (-errcode) := by
    unfold IsInt intMax
    omega
  have fails : sendFdBuf errcode = none := by
    rw [sendFdBuf, if_pos (by omega), checked_eq_none overflows]
    rfl
  rw [sendStatus, if_neg negative, sendFd, if_neg (fun both => negative both.1), fails]
  rfl

/-- When `send_err` succeeds with the status, its two bytes are on the stream. -/
theorem sendStatus_stream (kernel : Sender) (low : -2 ^ 31 < errcode) :
    ∃ rc written, sendStatus kernel errcode = some (rc, written) ∧
      (rc = 0 → written = [0, UInt8.ofNat (errorStatus errcode)]) ∧
      (kernel.sendmsg = 2 → rc = 0) := by
  have negative : ¬ (0 ≤ (if errcode ≥ 0 then (-1 : Int) else errcode) ∧ ¬ kernel.malloc) := by
    split
    · omega
    · omega
  rw [sendStatus, sendFd, if_neg negative, sendFdBuf_error low]
  by_cases complete : kernel.sendmsg = 2
  · refine ⟨0, [0, UInt8.ofNat (errorStatus errcode)], ?_, fun _ => rfl, fun _ => rfl⟩
    simp [complete]
  · refine ⟨-1, [0, UInt8.ofNat (errorStatus errcode)].take kernel.sendmsg.toNat, ?_,
      fun zero => absurd zero (by decide), fun same => absurd same complete⟩
    simp [complete]

/-- When `send_err` succeeds, the stream has the text and the two bytes of the status. -/
theorem sendText_stream (kernel : Sender) (low : -2 ^ 31 < errcode) {length : Int}
    (stored : length ≤ msg.length) :
    ∃ rc stream, sendText kernel errcode msg length = some (rc, stream) ∧
      (rc = 0 →
        stream = msg.take length.toNat ++ [0, UInt8.ofNat (errorStatus errcode)]) := by
  obtain ⟨rc, written, status, trailer, -⟩ := sendStatus_stream kernel low
  unfold sendText
  by_cases positive : length > 0
  · have isLength : ((msg.take length.toNat).length : Int) = length := by
      rw [List.length_take]
      omega
    have all : (writen kernel (msg.take length.toNat)).1 = (msg.take length.toNat).length →
        (writen kernel (msg.take length.toNat)).2 = msg.take length.toNat := writenLoop_all
    rw [if_pos positive]
    generalize writen kernel (msg.take length.toNat) = wrote at all ⊢
    by_cases complete : wrote.1 = length
    · refine ⟨rc, msg.take length.toNat ++ written, ?_, fun zero => by rw [trailer zero]⟩
      simp [complete, status, all (complete.trans isLength.symm)]
    · exact ⟨-1, wrote.2, by simp [complete], fun zero => absurd zero (by decide)⟩
  · rw [if_neg positive, Int.toNat_eq_zero.mpr (Int.not_lt.mp positive), List.take_zero]
    exact ⟨rc, written, status, trailer⟩

/-! ### A kernel that takes everything -/

/-- Every `write` takes all bytes, and `sendmsg` its two. -/
def takesAll : Sender where
  write nleft := nleft
  write_le _ := Int.le_refl _
  malloc := true
  sendmsg := 2

/-- `writen` ends with its first `write`. -/
theorem writen_takesAll (ptr : Bytes) : writen takesAll ptr = ((ptr.length : Int), ptr) := by
  unfold writen
  by_cases none_ : ptr = []
  · rw [none_, writenLoop, if_pos rfl]
  · have positive := List.length_pos_iff.mpr none_
    have all : takesAll.write ptr.length = (ptr.length : Int) := rfl
    rw [writenLoop, if_neg none_, all, if_neg (by omega), if_neg (by omega), Int.toNat_natCast,
      List.drop_length, writenLoop, if_pos rfl]
    simp

/-- `send_err` sends its text and the status. -/
theorem sendText_takesAll (errcode : Int) {length : Int} (stored : length ≤ msg.length) :
    sendText takesAll errcode msg length =
      (sendStatus takesAll errcode).map fun sent =>
        (sent.1, msg.take length.toNat ++ sent.2) := by
  unfold sendText
  by_cases positive : length > 0
  · have isLength : ((msg.take length.toNat).length : Int) = length := by
      rw [List.length_take]
      omega
    rw [if_pos positive, writen_takesAll]
    simp only [isLength, ne_eq, not_true_eq_false, if_false, Option.map_eq_bind]
    rfl
  · rw [if_neg positive, Int.toNat_eq_zero.mpr (Int.not_lt.mp positive), List.take_zero]
    simp

end Sent

/-! ## What the receiver makes of it -/

section Receive

variable {buf msg text : Bytes} {control : Option Int} {ptr nr k : Nat} {status newfd : Int}
  {userfunc : Bytes → Int}

/-- The scan passes over bytes that are not null. -/
theorem recvScan_skip (count : Nat) (inside : ptr + count ≤ nr)
    (plain : ∀ i, ptr ≤ i → i < ptr + count → buf[i]? ≠ some 0) :
    recvScan buf control ptr nr status newfd =
      recvScan buf control (ptr + count) nr status newfd := by
  induction count generalizing ptr with
  | zero => rfl
  | succ count rest =>
    rw [recvScan.eq_def, if_pos (by omega), if_neg (plain ptr (Nat.le_refl _) (by omega)),
      rest (by omega) fun i low high => plain i (by omega) (by omega)]
    congr 1
    omega

/-- Text without a null byte is scanned to its end. -/
theorem recvScan_text (noNul : 0 ∉ text) :
    recvScan text control 0 text.length status newfd = .scanned text.length status newfd := by
  have plain : ∀ i, 0 ≤ i → i < 0 + text.length → text[i]? ≠ some 0 := fun i _ _ isNul =>
    noNul (List.mem_of_getElem? isNul)
  rw [recvScan_skip text.length (by omega) plain, Nat.zero_add, recvScan.eq_def,
    if_neg (by omega)]

/-- Text with a status at its end is scanned to the null byte. -/
theorem recvScan_status {s : UInt8} (noNul : 0 ∉ text) (nonzero : s ≠ 0) :
    recvScan (text ++ [0, s]) control 0 (text ++ [0, s]).length status newfd =
      .scanned text.length s.toNat (-s.toNat) := by
  have length : (text ++ [0, s]).length = text.length + 2 := by simp
  have isNul : (text ++ [0, s])[text.length]? = some 0 := by simp
  have isStatus : (text ++ [0, s]).getD (text.length + 1) 0 = s := by simp
  have positive : s.toNat ≠ 0 := fun zero => nonzero (UInt8.toNat_inj.mp zero)
  rw [length, recvScan_skip text.length (by omega)]
  · rw [Nat.zero_add, recvScan.eq_def, if_pos (by omega), if_pos isNul, if_neg (by omega)]
    simp only [isStatus, if_neg positive]
    rw [recvScan.eq_def, if_neg (by omega), Nat.add_sub_cancel]
  · intro i _ low isNul'
    rw [List.getElem?_append_left (by omega)] at isNul'
    exact noNul (List.mem_of_getElem? isNul')

/-- The loop hands on the text in the pieces in which it comes, and returns the status. -/
theorem recvLoop_pieces {s : UInt8} (writesAll : ∀ bytes, userfunc bytes = bytes.length)
    (nonzero : s ≠ 0) (pieces : List Bytes) (last : Bytes) (nonempty : ∀ piece ∈ pieces, piece ≠ [])
    (noNul : 0 ∉ pieces.flatten ++ last) (unset : status < 0) :
    ∃ handed, recvLoop userfunc ((pieces ++ [last ++ [0, s]]).map fun piece => .data piece none)
        status newfd = (.returned (-s.toNat), handed) ∧
      handed.flatten = pieces.flatten ++ last := by
  induction pieces generalizing newfd with
  | nil =>
    have plain : 0 ∉ last := by simpa using noNul
    have wholeText : (last ++ [0, s]).take last.length = last := by simp
    refine ⟨if last.length > 0 then [last] else [], ?_, ?_⟩
    · simp only [List.nil_append, List.map_cons, List.map_nil, recvLoop]
      rw [if_neg (by simp), recvScan_status plain nonzero]
      simp [wholeText, writesAll]
    · split
      · simp
      · rename_i none_
        have isEmpty : last = [] := List.length_eq_zero_iff.mp (by omega)
        simp [isEmpty]
  | cons piece pieces rest =>
    have here : piece ≠ [] := nonempty piece List.mem_cons_self
    have positive := List.length_pos_iff.mpr here
    rw [List.flatten_cons, List.append_assoc, List.mem_append, not_or] at noNul
    obtain ⟨handed, ends, whole⟩ := @rest newfd
      (fun other mem => nonempty other (List.mem_cons_of_mem _ mem)) noNul.2
    refine ⟨piece :: handed, ?_, ?_⟩
    · simp only [List.cons_append, List.map_cons, recvLoop]
      rw [if_neg here, recvScan_text noNul.1]
      simp only [List.take_length, writesAll]
      rw [if_neg (by simp), if_neg (by omega), ends]
      simp [positive]
    · rw [List.flatten_cons, whole, List.flatten_cons, List.append_assoc]

/-- However the stream is cut into pieces, as long as the two bytes of the status stay together,
`recv_fd` hands all of the text and nothing else to its function, in order, and returns the
status with a minus sign. -/
theorem recvFd_stream {errcode : Int} (noNul : 0 ∉ text)
    (writesAll : ∀ bytes, userfunc bytes = bytes.length) (front : List Bytes) (last : Bytes)
    (pieces : (front ++ [last]).flatten = text ++ [0, UInt8.ofNat (errorStatus errcode)])
    (nonempty : ∀ piece ∈ front, piece ≠ []) (together : 2 ≤ last.length) :
    ∃ handed,
      recvFd userfunc ((front ++ [last]).map fun piece => .data piece none) =
          (.returned (-errorStatus errcode), handed) ∧ handed.flatten = text := by
  obtain ⟨low, high⟩ := errorStatus_bounds errcode
  have isStatus : (UInt8.ofNat (errorStatus errcode)).toNat = errorStatus errcode := by
    rw [UInt8.toNat_ofNat']
    exact Nat.mod_eq_of_lt (by omega)
  have nonzero : UInt8.ofNat (errorStatus errcode) ≠ 0 := by
    intro zero
    rw [zero] at isStatus
    have isZero : 0 = errorStatus errcode := isStatus
    omega
  -- The last piece ends with the two bytes, and the text is what comes before them.
  have cut : ∃ body, last = body ++ [0, UInt8.ofNat (errorStatus errcode)] ∧
      text = front.flatten ++ body := by
    rw [List.flatten_append, List.flatten_singleton] at pieces
    rcases List.append_eq_append_iff.mp pieces with ⟨body, isText, isLast⟩ | ⟨body, isFront, isLast⟩
    · exact ⟨body, isLast, isText⟩
    · have none_ : body = [] := by
        have lengths := congrArg List.length isLast
        simp only [List.length_append, List.length_cons, List.length_nil] at lengths
        exact List.length_eq_zero_iff.mp (by omega)
      rw [none_, List.append_nil] at isFront
      rw [none_, List.nil_append] at isLast
      exact ⟨[], isLast.symm, by rw [isFront, List.append_nil]⟩
  obtain ⟨body, rfl, rfl⟩ := cut
  obtain ⟨handed, ends, whole⟩ :=
    recvLoop_pieces writesAll nonzero front body nonempty noNul (by decide : (-1 : Int) < 0)
  refine ⟨handed, ?_, whole⟩
  rw [isStatus] at ends
  exact ends

end Receive

/-! ## The reply -/

/-- A reply arrives: `send_err` ends, and when it succeeds, however the kernel cuts the stream into
pieces of at most `MAXLINE` bytes, as long as the two bytes of the status stay together,
`recv_fd` hands all of the message and nothing else to its function, in order, and returns the
status with a minus sign. -/
def Arrives (errcode : Int) (msg : Bytes) : Prop :=
  ∀ kernel : Sender, ∃ rc stream, sendErr kernel errcode msg = some (rc, stream) ∧
    (rc = 0 → ∀ userfunc : Bytes → Int, (∀ bytes, userfunc bytes = bytes.length) →
      ∀ (front : List Bytes) (last : Bytes), (front ++ [last]).flatten = stream →
        (∀ piece ∈ front, piece ≠ []) → 2 ≤ last.length →
        (∀ piece ∈ front ++ [last], piece.length ≤ maxline) →
        ∃ handed,
          recvFd userfunc ((front ++ [last]).map fun piece => .data piece none) =
              (.returned (-errorStatus errcode), handed) ∧
            handed.flatten = msg ∧ 1 ≤ errorStatus errcode ∧ errorStatus errcode ≤ 255)

section Arriving

variable {errcode : Int} {msg : Bytes}

/-- A stored length is at most the length. -/
theorem ofSize_le (n : Nat) : ofSize n ≤ n := by
  rcases Nat.lt_or_ge intMax n with exceeds | fits
  · exact Int.le_of_lt (ofSize_lt exceeds)
  · exact Int.le_of_eq (ofSize_eq fits)

/-- What `send_err` leaves on the stream when the kernel takes everything. -/
theorem sendErr_takesAll (low : -2 ^ 31 < errcode) : sendErr takesAll errcode msg =
    some (0, msg.take (ofSize msg.length).toNat ++ [0, UInt8.ofNat (errorStatus errcode)]) := by
  obtain ⟨rc, written, status, trailer, succeeds⟩ := sendStatus_stream takesAll low
  rw [sendErr, sendText_takesAll errcode (ofSize_le msg.length), status, Option.map_some,
    succeeds rfl, trailer (succeeds rfl)]

/-- A reply with an error code above the least `int` and a text of at most `INT_MAX` bytes
arrives. -/
theorem arrives_of_fits (noNul : 0 ∉ msg) (short : msg.length ≤ intMax) (low : -2 ^ 31 < errcode) :
    Arrives errcode msg := by
  intro kernel
  obtain ⟨rc, stream, sent, complete⟩ := sendText_stream kernel low (ofSize_le msg.length)
  have whole : msg.take (ofSize msg.length).toNat = msg := by
    rw [ofSize_eq short, Int.toNat_natCast, List.take_length]
  rw [whole] at complete
  refine ⟨rc, stream, sent, fun zero userfunc writesAll front last pieces nonempty together _ => ?_⟩
  obtain ⟨handed, ends, same⟩ :=
    recvFd_stream noNul writesAll front last (pieces.trans (complete zero)) nonempty together
  exact ⟨handed, ends, same, errorStatus_bounds errcode⟩

/-- When a reply arrives, its error code has a negative. -/
theorem low_of_arrives (arrives : Arrives errcode msg) : -2 ^ 31 < errcode := by
  by_contra least
  obtain ⟨rc, stream, sent, -⟩ := arrives takesAll
  rw [sendErr, sendText_takesAll errcode (ofSize_le msg.length),
    sendStatus_overflow takesAll (Int.not_lt.mp least)] at sent
  cases sent

/-- When a reply arrives, its length is an `int`. -/
theorem short_of_arrives (noNul : 0 ∉ msg) (arrives : Arrives errcode msg) :
    msg.length ≤ intMax := by
  have low := low_of_arrives arrives
  obtain ⟨rc, stream, sent, received⟩ := arrives takesAll
  rw [sendErr_takesAll low] at sent
  obtain ⟨rfl, rfl⟩ := Prod.mk.inj (Option.some.inj sent)
  -- The bytes of the text come one by one.
  generalize isText : msg.take (ofSize msg.length).toNat = text at received
  have plain : 0 ∉ text := fun mem => noNul (List.mem_of_mem_take (isText ▸ mem))
  have pieces : (text.map (fun byte => [byte]) ++
      [[0, UInt8.ofNat (errorStatus errcode)]]).flatten =
        text ++ [0, UInt8.ofNat (errorStatus errcode)] := by
    have single : (text.map fun byte => [byte]).flatten = text := by
      rw [← List.flatMap_def, List.flatMap_singleton']
    rw [List.flatten_append, List.flatten_singleton, single]
  have single : ∀ piece ∈ text.map fun byte => [byte], piece ≠ [] ∧ piece.length ≤ maxline := by
    intro piece mem
    obtain ⟨byte, -, rfl⟩ := List.mem_map.mp mem
    exact ⟨List.cons_ne_nil _ _, by simp [maxline]⟩
  have writesAll : ∀ bytes : Bytes, (fun bytes : Bytes => (bytes.length : Int)) bytes =
      bytes.length := fun _ => rfl
  have small : ∀ piece ∈ text.map (fun byte => [byte]) ++
      [[0, UInt8.ofNat (errorStatus errcode)]], piece.length ≤ maxline := by
    intro piece mem
    rcases List.mem_append.mp mem with front | last
    · exact (single piece front).2
    · rw [List.mem_singleton.mp last]
      simp [maxline]
  obtain ⟨handed, ends, same, -⟩ := received rfl _ writesAll _ _ pieces
    (fun piece mem => (single piece mem).1) (Nat.le_refl 2) small
  obtain ⟨handed', ends', same'⟩ := recvFd_stream plain writesAll _ _ pieces
    (fun piece mem => (single piece mem).1) (Nat.le_refl 2)
  obtain rfl : handed = handed' := congrArg Prod.snd (ends.symm.trans ends')
  -- What was handed on is both the message and its sent text.
  by_contra long
  have less := ofSize_lt (Nat.not_le.mp long)
  have lengths := congrArg List.length (isText.trans (same'.symm.trans same))
  rw [List.length_take] at lengths
  omega

/-- A message without a null byte arrives, with its error code, exactly when its length is an `int`
and the error code is not the least `int`. -/
theorem error_reply_received_iff (noNul : 0 ∉ msg) :
    Arrives errcode msg ↔ msg.length ≤ intMax ∧ -2 ^ 31 < errcode :=
  ⟨fun arrives => ⟨short_of_arrives noNul arrives, low_of_arrives arrives⟩,
    fun fits => arrives_of_fits noNul fits.1 fits.2⟩

/-- A reply with the text `no` and the error code `-2` that comes in two pieces. -/
theorem error_reply_received_two_pieces :
    sendErr takesAll (-2) [110, 111] = some (0, [110, 111, 0, 2]) ∧ ∃ handed,
      recvFd (fun bytes => bytes.length) [.data [110] none, .data [111, 0, 2] none] =
          (.returned (-2), handed) ∧ handed.flatten = [110, 111] := by
  have noNul : (0 : UInt8) ∉ [110, 111] := by decide
  have sent : sendErr takesAll (-2) [110, 111] = some (0, [110, 111, 0, 2]) :=
    sendErr_takesAll (by decide)
  have arrives : Arrives (-2) [110, 111] :=
    (error_reply_received_iff noNul).mpr ⟨by decide, by decide⟩
  obtain ⟨rc, stream, sent', received⟩ := arrives takesAll
  obtain ⟨rfl, rfl⟩ := Prod.mk.inj (Option.some.inj (sent.symm.trans sent'))
  obtain ⟨handed, ends, whole, -⟩ := received rfl (fun bytes => bytes.length) (fun _ => rfl)
    [[110]] [111, 0, 2] rfl (by decide) (by decide) (by decide)
  exact ⟨sent, handed, ends, whole⟩

/-- Of a message of `2 ^ 31` bytes nothing is sent, and `send_err` succeeds. -/
theorem error_reply_lost :
    sendErr takesAll (-1) (List.replicate (2 ^ 31) 110) = some (0, [0, 1]) ∧
      ¬ Arrives (-1) (List.replicate (2 ^ 31) 110) := by
  have length : (List.replicate (2 ^ 31) (110 : UInt8)).length = 2 ^ 31 := List.length_replicate
  have stored : (ofSize (2 ^ 31)).toNat = 0 := by decide
  have noNul : (0 : UInt8) ∉ List.replicate (2 ^ 31) (110 : UInt8) := fun mem =>
    absurd (List.eq_of_mem_replicate mem) (by decide)
  refine ⟨?_, fun arrives => ?_⟩
  · rw [sendErr_takesAll (by decide), length, stored, List.take_zero]
    rfl
  · have short := short_of_arrives noNul arrives
    rw [length] at short
    exact absurd short (by decide)

end Arriving

end CodeLearning.OpenServer
