import CodeLearning.Lib.ByteFile
import CodeLearning.Lib.Machine
import Mathlib.Algebra.BigOperators.Group.List.Basic
import Mathlib.Algebra.Order.Ring.Nat

/-!
# Messages of known lengths over a pipe

A writer sends messages with `writen`, one call for each, and a reader asks for them with `readn`,
one call for each length. The kernel moves the bytes in pieces of any size, the calls of the two
processes interleave in any order, and a call of `read` or `write` may fail.
-/

namespace CodeLearning.Pipe

/-- What a turn of the loop of `readn` or of `writen` leads to. -/
inductive Turn where
  /-- The next turn. -/
  | again (nleft : Nat)
  /-- The function returns. -/
  | returned (value : Int)
deriving DecidableEq

/-- A turn of the loop, which is the same in both functions, after `read` or `write` returned. -/
def turn (n nleft : Nat) (result : Int) : Turn :=
  if result < 0 then
    if nleft = n then .returned (-1) else .returned (n - nleft)
  else if result = 0 then .returned (n - nleft)
  else if nleft - result.toNat > 0 then .again (nleft - result.toNat)
  else .returned (n - (nleft - result.toNat : Nat))

/-- `writen` in its loop. -/
structure Writing where
  /-- What is to be written. -/
  msg : Bytes
  /-- How many of its bytes are left. -/
  nleft : Nat
deriving DecidableEq

/-- `readn` in its loop. -/
structure Reading where
  /-- How many bytes are to be read. -/
  n : Nat
  /-- How many of them are left. -/
  nleft : Nat
  /-- The bytes that are in the buffer. -/
  buf : Bytes
deriving DecidableEq

/-- A call of `writen` that has returned. -/
structure Wrote where
  /-- What was to be written. -/
  msg : Bytes
  /-- What the function returned. -/
  value : Int
deriving DecidableEq

/-- A call of `readn` that has returned. -/
structure Got where
  /-- How many bytes were to be read. -/
  n : Nat
  /-- What the function returned. -/
  value : Int
  /-- The bytes that are in the buffer. -/
  buf : Bytes
deriving DecidableEq

/-- The writer, the reader and the bytes in the pipe. -/
structure State where
  /-- Messages that the writer has not come to yet. -/
  toWrite : List Bytes
  /-- `writen`, while it runs. -/
  writing : Option Writing
  /-- Calls of `writen` that have returned. -/
  wrote : List Wrote
  /-- The writer has closed its end. -/
  closed : Bool
  /-- Bytes that are written and not read. -/
  pipe : Bytes
  /-- Lengths that the reader has not come to yet. -/
  toRead : List Nat
  /-- `readn`, while it runs. -/
  reading : Option Reading
  /-- Calls of `readn` that have returned. -/
  got : List Got
deriving DecidableEq

/-- What happens next. -/
inductive Event where
  /-- The writer calls `writen` for the next message. -/
  | callWriten
  /-- `write` returns in `writen`. -/
  | write (result : Int)
  /-- The writer closes its end. -/
  | close
  /-- The reader calls `readn` for the next length. -/
  | callReadn
  /-- `read` returns in `readn`. -/
  | read (result : Int)
deriving DecidableEq

/-- `write` and `read` do not fail, and `write` does not return `0`. -/
def Event.Fine : Event → Prop
  | .write result => 0 < result
  | .read result => 0 ≤ result
  | _ => True

/-- `writen` after `write` returned. -/
def writeStep (s : State) (w : Writing) (result : Int) : State :=
  let s := { s with pipe := s.pipe ++ (w.msg.drop (w.msg.length - w.nleft)).take result.toNat }
  match turn w.msg.length w.nleft result with
  | .again nleft => { s with writing := some ⟨w.msg, nleft⟩ }
  | .returned value => { s with writing := none, wrote := s.wrote ++ [⟨w.msg, value⟩] }

/-- `readn` after `read` returned. -/
def readStep (s : State) (r : Reading) (result : Int) : State :=
  let buf := r.buf ++ s.pipe.take result.toNat
  let s := { s with pipe := s.pipe.drop result.toNat }
  match turn r.n r.nleft result with
  | .again nleft => { s with reading := some ⟨r.n, nleft, buf⟩ }
  | .returned value => { s with reading := none, got := s.got ++ [⟨r.n, value, buf⟩] }

/-- One event. The pipe holds `cap` bytes at most; `read` returns `0` when the pipe is empty and its
other end closed, and waits when it is empty and not closed. -/
def step (cap : Nat) (s : State) : Event → Option State
  | .callWriten =>
    match s.writing, s.toWrite with
    | none, msg :: rest =>
      some (if msg.length > 0 then { s with toWrite := rest, writing := some ⟨msg, msg.length⟩ }
        else { s with toWrite := rest, wrote := s.wrote ++ [⟨msg, 0⟩] })
    | _, _ => none
  | .write result =>
    match s.writing with
    | some w =>
      if result ≤ w.nleft ∧ s.pipe.length + result.toNat ≤ cap then some (writeStep s w result)
      else none
    | none => none
  | .close =>
    if s.writing = none ∧ s.toWrite = [] ∧ s.closed = false then some { s with closed := true }
    else none
  | .callReadn =>
    match s.reading, s.toRead with
    | none, n :: rest =>
      some (if n > 0 then { s with toRead := rest, reading := some ⟨n, n, []⟩ }
        else { s with toRead := rest, got := s.got ++ [⟨n, 0, []⟩] })
    | _, _ => none
  | .read result =>
    match s.reading with
    | some r =>
      if result ≤ r.nleft ∧ result.toNat ≤ s.pipe.length ∧
          (result = 0 → s.pipe = [] ∧ s.closed = true) then some (readStep s r result)
      else none
    | none => none

/-- Before the first call. -/
def start (msgs : List Bytes) (lengths : List Nat) : State where
  toWrite := msgs
  writing := none
  wrote := []
  closed := false
  pipe := []
  toRead := lengths
  reading := none
  got := []

/-! ## No byte is lost -/

/-- The bytes that a call of `writen` says it has written. -/
def Wrote.bytes (w : Wrote) : Bytes := w.msg.take w.value.toNat

/-- The bytes that the writer has written: those that the calls have returned, and those of the
call that runs. -/
def State.sent (s : State) : Bytes :=
  (s.wrote.map Wrote.bytes).flatten ++
    (s.writing.map fun w => w.msg.take (w.msg.length - w.nleft)).getD []

/-- The bytes that the reader has read. -/
def State.received (s : State) : Bytes :=
  (s.got.map Got.buf).flatten ++ (s.reading.map Reading.buf).getD []

/-- What a call of `writen` returns: `-1` when it has written nothing, else a count. -/
def Wrote.Counted (w : Wrote) : Prop := w.value = -1 ∨ (0 ≤ w.value ∧ w.value ≤ w.msg.length)

/-- What a call of `readn` returns: `-1` when it has read nothing, else the count of the bytes in
the buffer. -/
def Got.Counted (g : Got) : Prop :=
  (g.value = -1 ∧ g.buf = []) ∨ (g.value = g.buf.length ∧ g.buf.length ≤ g.n)

/-- The values that the calls return account for every byte. -/
structure Intact (s : State) : Prop where
  /-- What was written is what was read, followed by what is in the pipe. -/
  stream : s.sent = s.received ++ s.pipe
  /-- The values of `writen`. -/
  wrote : ∀ w ∈ s.wrote, w.Counted
  /-- The values of `readn`. -/
  got : ∀ g ∈ s.got, g.Counted
  /-- The running call of `writen`. -/
  writing : ∀ w, s.writing = some w → 0 < w.nleft ∧ w.nleft ≤ w.msg.length
  /-- The running call of `readn`. -/
  reading : ∀ r, s.reading = some r → 0 < r.nleft ∧ r.nleft + r.buf.length = r.n

section Steps

variable {cap n nleft : Nat} {result : Int} {s s' : State} {w : Writing} {r : Reading}
  {event : Event} {msgs : List Bytes} {lengths : List Nat}

/-- What a turn leads to: the function fails, it returns what it has moved, it goes on, or it has
moved everything. -/
theorem turn_cases (left : 0 < nleft) (within : nleft ≤ n) (most : result ≤ nleft) :
    (result ≤ 0 ∧ nleft = n ∧ turn n nleft result = .returned (-1)) ∨
    (result ≤ 0 ∧ turn n nleft result = .returned (n - nleft : Nat)) ∨
    (0 < result ∧ result.toNat < nleft ∧ turn n nleft result = .again (nleft - result.toNat)) ∨
    (0 < result ∧ result.toNat = nleft ∧ turn n nleft result = .returned n) := by
  by_cases fails : result < 0
  · by_cases fresh : nleft = n
    · exact .inl ⟨Int.le_of_lt fails, fresh, by rw [turn, if_pos fails, if_pos fresh]⟩
    · refine .inr (.inl ⟨Int.le_of_lt fails, ?_⟩)
      rw [turn, if_pos fails, if_neg fresh, Int.ofNat_sub within]
  · by_cases none_ : result = 0
    · refine .inr (.inl ⟨Int.le_of_eq none_, ?_⟩)
      rw [turn, if_neg fails, if_pos none_, Int.ofNat_sub within]
    · by_cases more : nleft - result.toNat > 0
      · refine .inr (.inr (.inl ⟨by omega, by omega, ?_⟩))
        rw [turn, if_neg fails, if_neg none_, if_pos more]
      · refine .inr (.inr (.inr ⟨by omega, by omega, ?_⟩))
        rw [turn, if_neg fails, if_neg none_, if_neg more]
        congr 1
        omega

/-- The bytes that `write` takes of a message. -/
def Writing.chunk (w : Writing) (result : Int) : Bytes :=
  (w.msg.drop (w.msg.length - w.nleft)).take result.toNat

/-- What `write` takes of a message is what it writes next. -/
theorem Writing.take_chunk (w : Writing) (result : Int) :
    w.msg.take (w.msg.length - w.nleft) ++ w.chunk result =
      w.msg.take (w.msg.length - w.nleft + result.toNat) := List.take_add.symm

/-- A turn of `writen` puts what `write` takes behind what was sent, and into the pipe. -/
theorem writeStep_eq (here : s.writing = some w) (left : 0 < w.nleft)
    (within : w.nleft ≤ w.msg.length) (most : result ≤ w.nleft) :
    ∃ writing wrote, writeStep s w result =
        { s with pipe := s.pipe ++ w.chunk result, writing := writing, wrote := wrote } ∧
      (writeStep s w result).sent = s.sent ++ w.chunk result ∧
      ((writing = none ∧ ∃ value, wrote = s.wrote ++ [⟨w.msg, value⟩] ∧
          (⟨w.msg, value⟩ : Wrote).Counted ∧
          (0 < result → value = w.msg.length ∧ result.toNat = w.nleft)) ∨
        (0 < result ∧ wrote = s.wrote ∧ result.toNat < w.nleft ∧
          writing = some ⟨w.msg, w.nleft - result.toNat⟩)) := by
  have moved := w.take_chunk result
  have sent : s.sent = (s.wrote.map Wrote.bytes).flatten ++
      w.msg.take (w.msg.length - w.nleft) := by
    rw [State.sent, here]
    rfl
  have none_ : result ≤ 0 → result.toNat = 0 := Int.toNat_of_nonpos
  have returned : ∀ value : Int,
      w.msg.take value.toNat = w.msg.take (w.msg.length - w.nleft + result.toNat) →
      ({ s with pipe := s.pipe ++ w.chunk result, writing := none,
                wrote := s.wrote ++ [⟨w.msg, value⟩] } : State).sent =
        s.sent ++ w.chunk result := by
    intro value same
    rw [sent, List.append_assoc, moved, ← same]
    simp [State.sent, Wrote.bytes]
  rcases turn_cases left within most with ⟨low, fresh, turned⟩ | ⟨low, turned⟩ |
    ⟨high, less, turned⟩ | ⟨high, all, turned⟩
  · refine ⟨none, s.wrote ++ [⟨w.msg, -1⟩], by simp only [writeStep, turned]; rfl, ?_,
      .inl ⟨rfl, -1, rfl, .inl rfl, fun high => by omega⟩⟩
    simp only [writeStep, turned]
    apply returned
    rw [fresh, Nat.sub_self, none_ low]
    rfl
  · refine ⟨none, s.wrote ++ [⟨w.msg, (w.msg.length - w.nleft : Nat)⟩],
      by simp only [writeStep, turned]; rfl, ?_, .inl ⟨rfl, _, rfl, .inr ?_, fun high => by omega⟩⟩
    · simp only [writeStep, turned]
      apply returned
      rw [none_ low]
      rfl
    · dsimp only
      omega
  · refine ⟨some ⟨w.msg, w.nleft - result.toNat⟩, s.wrote, by simp only [writeStep, turned]; rfl,
      ?_, .inr ⟨high, rfl, less, rfl⟩⟩
    have position : w.msg.length - (w.nleft - result.toNat) =
        w.msg.length - w.nleft + result.toNat := by omega
    simp only [writeStep, turned]
    rw [sent, List.append_assoc, moved, ← position]
    rfl
  · refine ⟨none, s.wrote ++ [⟨w.msg, w.msg.length⟩], by simp only [writeStep, turned]; rfl, ?_,
      .inl ⟨rfl, _, rfl, .inr (by dsimp only; omega), fun _ => ⟨rfl, all⟩⟩⟩
    simp only [writeStep, turned]
    apply returned
    rw [all, Nat.sub_add_cancel within]
    rfl

/-- A turn of `readn` moves what `read` takes from the pipe behind what was received. -/
theorem readStep_eq (here : s.reading = some r) (left : 0 < r.nleft)
    (total : r.nleft + r.buf.length = r.n) (most : result ≤ r.nleft)
    (there : result.toNat ≤ s.pipe.length) :
    ∃ reading got, readStep s r result =
        { s with pipe := s.pipe.drop result.toNat, reading := reading, got := got } ∧
      (readStep s r result).received = s.received ++ s.pipe.take result.toNat ∧
      ((reading = none ∧ ∃ g : Got, got = s.got ++ [g] ∧ g.n = r.n ∧ g.Counted ∧
          (0 < result → g.value = r.n ∧ g.buf.length = r.n ∧ result.toNat = r.nleft)) ∨
        (0 < result ∧ got = s.got ∧ result.toNat < r.nleft ∧
          reading = some ⟨r.n, r.nleft - result.toNat, r.buf ++ s.pipe.take result.toNat⟩)) := by
  have received : s.received = (s.got.map Got.buf).flatten ++ r.buf := by
    rw [State.received, here]
    rfl
  have size : (s.pipe.take result.toNat).length = result.toNat :=
    List.length_take_of_le there
  have none_ : result ≤ 0 → result.toNat = 0 := Int.toNat_of_nonpos
  have returned : ∀ value : Int,
      ({ s with pipe := s.pipe.drop result.toNat, reading := none,
                got := s.got ++ [⟨r.n, value, r.buf ++ s.pipe.take result.toNat⟩] } :
        State).received = s.received ++ s.pipe.take result.toNat := by
    intro value
    rw [received]
    simp [State.received]
  rcases turn_cases left (Nat.le.intro total) most with ⟨low, fresh, turned⟩ | ⟨low, turned⟩ |
    ⟨high, less, turned⟩ | ⟨high, all, turned⟩
  · have empty : r.buf ++ s.pipe.take result.toNat = [] := by
      rw [none_ low, List.take_zero, List.append_nil]
      exact List.eq_nil_of_length_eq_zero (by omega)
    exact ⟨none, _, by simp only [readStep, turned]; rfl, by
      simp only [readStep, turned]
      exact returned _, .inl ⟨rfl, _, rfl, rfl, .inl ⟨rfl, empty⟩, fun high => by omega⟩⟩
  · refine ⟨none, _, by simp only [readStep, turned]; rfl, by
      simp only [readStep, turned]
      exact returned _, .inl ⟨rfl, _, rfl, rfl, .inr ?_, fun high => by omega⟩⟩
    rw [none_ low, List.take_zero, List.append_nil]
    dsimp only
    omega
  · refine ⟨some ⟨r.n, r.nleft - result.toNat, r.buf ++ s.pipe.take result.toNat⟩, s.got,
      by simp only [readStep, turned], ?_, .inr ⟨high, rfl, less, rfl⟩⟩
    simp only [readStep, turned]
    rw [received]
    simp [State.received]
  · have full : (r.buf ++ s.pipe.take result.toNat).length = r.n := by
      rw [List.length_append, size]
      omega
    refine ⟨none, _, by simp only [readStep, turned]; rfl, by
      simp only [readStep, turned]
      exact returned _, .inl ⟨rfl, _, rfl, rfl, .inr ?_, fun _ => ⟨rfl, full, all⟩⟩⟩
    exact ⟨congrArg Nat.cast full.symm, Nat.le_of_eq full⟩

/-- What an event does to the state. -/
inductive Moves (cap : Nat) (s : State) : Event → State → Prop where
  /-- `writen` is called. -/
  | callWriten (msg : Bytes) (rest : List Bytes) (idle : s.writing = none)
      (next : s.toWrite = msg :: rest) (some_ : 0 < msg.length) :
      Moves cap s .callWriten { s with toWrite := rest, writing := some ⟨msg, msg.length⟩ }
  /-- `writen` is called for nothing and returns. -/
  | skipWriten (rest : List Bytes) (idle : s.writing = none) (next : s.toWrite = [] :: rest) :
      Moves cap s .callWriten { s with toWrite := rest, wrote := s.wrote ++ [⟨[], 0⟩] }
  /-- A turn of `writen`. -/
  | write (w : Writing) (result : Int) (here : s.writing = some w) (most : result ≤ w.nleft)
      (room : s.pipe.length + result.toNat ≤ cap) :
      Moves cap s (.write result) (writeStep s w result)
  /-- The writer is done. -/
  | close (idle : s.writing = none) (done : s.toWrite = []) (isOpen : s.closed = false) :
      Moves cap s .close { s with closed := true }
  /-- `readn` is called. -/
  | callReadn (n : Nat) (rest : List Nat) (idle : s.reading = none) (next : s.toRead = n :: rest)
      (some_ : 0 < n) :
      Moves cap s .callReadn { s with toRead := rest, reading := some ⟨n, n, []⟩ }
  /-- `readn` is called for nothing and returns. -/
  | skipReadn (rest : List Nat) (idle : s.reading = none) (next : s.toRead = 0 :: rest) :
      Moves cap s .callReadn { s with toRead := rest, got := s.got ++ [⟨0, 0, []⟩] }
  /-- A turn of `readn`. -/
  | read (r : Reading) (result : Int) (here : s.reading = some r) (most : result ≤ r.nleft)
      (there : result.toNat ≤ s.pipe.length)
      (atEnd : result = 0 → s.pipe = [] ∧ s.closed = true) :
      Moves cap s (.read result) (readStep s r result)

/-- An event that can happen is one of these. -/
theorem step_moves (stepped : step cap s event = some s') : Moves cap s event s' := by
  cases event with
  | callWriten =>
    simp only [step] at stepped
    split at stepped
    · rename_i msg rest idle next
      obtain rfl := Option.some.inj stepped
      split
      · rename_i some_
        exact .callWriten msg rest idle next some_
      · rename_i empty
        obtain rfl : msg = [] := List.eq_nil_of_length_eq_zero (by omega)
        exact .skipWriten rest idle next
    · cases stepped
  | write result =>
    simp only [step] at stepped
    split at stepped
    · rename_i w here
      split at stepped
      · rename_i allowed
        obtain rfl := Option.some.inj stepped
        exact .write w result here allowed.1 allowed.2
      · cases stepped
    · cases stepped
  | close =>
    simp only [step] at stepped
    split at stepped
    · rename_i allowed
      obtain rfl := Option.some.inj stepped
      exact .close allowed.1 allowed.2.1 allowed.2.2
    · cases stepped
  | callReadn =>
    simp only [step] at stepped
    split at stepped
    · rename_i n rest idle next
      obtain rfl := Option.some.inj stepped
      split
      · rename_i some_
        exact .callReadn n rest idle next some_
      · rename_i none_
        obtain rfl : n = 0 := by omega
        exact .skipReadn rest idle next
    · cases stepped
  | read result =>
    simp only [step] at stepped
    split at stepped
    · rename_i r here
      split at stepped
      · rename_i allowed
        obtain rfl := Option.some.inj stepped
        exact .read r result here allowed.1 allowed.2.1 allowed.2.2
      · cases stepped
    · cases stepped

/-- Every event keeps the account of the bytes. -/
theorem Intact.step (intact : Intact s) (stepped : step cap s event = some s') : Intact s' := by
  have stream := intact.stream
  cases step_moves stepped with
  | callWriten msg rest idle next some_ =>
    rw [State.sent, idle] at stream
    refine ⟨?_, intact.wrote, intact.got, ?_, intact.reading⟩
    · simpa [State.sent, State.received] using stream
    · intro w isNew
      obtain rfl := Option.some.inj isNew
      exact ⟨some_, Nat.le_refl _⟩
  | skipWriten rest idle next =>
    refine ⟨?_, ?_, intact.got, intact.writing, intact.reading⟩
    · rw [State.sent, idle] at stream
      simpa [State.sent, State.received, idle, Wrote.bytes] using stream
    · exact List.forall_mem_append.mpr ⟨intact.wrote,
        List.forall_mem_singleton.mpr (.inr ⟨Int.le_refl 0, Int.le_refl 0⟩)⟩
  | write w result here most room =>
    obtain ⟨left, within⟩ := intact.writing w here
    obtain ⟨writing, wrote, moved, sent, turned⟩ := writeStep_eq here left within most
    have stream' : (writeStep s w result).sent = s.received ++ (s.pipe ++ w.chunk result) := by
      rw [sent, stream, List.append_assoc]
    rw [moved] at stream' ⊢
    rcases turned with ⟨rfl, value, rfl, counted, -⟩ | ⟨-, rfl, less, rfl⟩
    · exact ⟨stream', List.forall_mem_append.mpr ⟨intact.wrote,
        List.forall_mem_singleton.mpr counted⟩, intact.got, (fun w isNew => by cases isNew),
        intact.reading⟩
    · refine ⟨stream', intact.wrote, intact.got, ?_, intact.reading⟩
      intro w' isNew
      obtain rfl := Option.some.inj isNew
      dsimp only
      omega
  | close idle done isOpen =>
    exact ⟨stream, intact.wrote, intact.got, intact.writing, intact.reading⟩
  | callReadn n rest idle next some_ =>
    rw [State.received, idle] at stream
    refine ⟨?_, intact.wrote, intact.got, intact.writing, ?_⟩
    · simpa [State.sent, State.received] using stream
    · intro r isNew
      obtain rfl := Option.some.inj isNew
      exact ⟨some_, rfl⟩
  | skipReadn rest idle next =>
    refine ⟨?_, intact.wrote, ?_, intact.writing, intact.reading⟩
    · rw [State.received, idle] at stream
      simpa [State.sent, State.received, idle] using stream
    · exact List.forall_mem_append.mpr ⟨intact.got,
        List.forall_mem_singleton.mpr (.inr ⟨rfl, Nat.le_refl 0⟩)⟩
  | read r result here most there atEnd =>
    obtain ⟨left, total⟩ := intact.reading r here
    obtain ⟨reading, got, moved, received, turned⟩ := readStep_eq here left total most there
    have stream' : s.sent = (readStep s r result).received ++ s.pipe.drop result.toNat := by
      rw [received, stream, List.append_assoc, List.take_append_drop]
    rw [moved] at stream' ⊢
    rcases turned with ⟨rfl, g, rfl, -, counted, -⟩ | ⟨-, rfl, less, rfl⟩
    · exact ⟨stream', intact.wrote, List.forall_mem_append.mpr ⟨intact.got,
        List.forall_mem_singleton.mpr counted⟩, intact.writing, fun r isNew => by cases isNew⟩
    · refine ⟨stream', intact.wrote, intact.got, intact.writing, ?_⟩
      intro r' isNew
      obtain rfl := Option.some.inj isNew
      have size : (s.pipe.take result.toNat).length = result.toNat := List.length_take_of_le there
      dsimp only
      rw [List.length_append, size]
      omega

/-- Nothing is sent at the start. -/
theorem start_intact (msgs : List Bytes) (lengths : List Nat) : Intact (start msgs lengths) :=
  ⟨rfl, fun _ mem => absurd mem List.not_mem_nil, fun _ mem => absurd mem List.not_mem_nil,
    (fun _ isNew => by cases isNew), (fun _ isNew => by cases isNew)⟩

/-- Whatever the kernel does, failures included, the values that `writen` and `readn` return
account for every byte: what the reader has is what the writer wrote, in order, but for what is in
the pipe. -/
theorem stream_intact {events : List Event}
    (ran : Machine.run (step cap) (start msgs lengths) events = some s) : Intact s :=
  Machine.run_keeps (fun _ _ _ intact stepped => intact.step stepped)
    (start_intact msgs lengths) ran

/-- A message of which two bytes are written before `write` fails; `readn` gets one of them, fails,
and gets the other. -/
def failedWrite : List Event :=
  [.callWriten, .callReadn, .write 2, .write (-1), .read 1, .read (-1), .close, .callReadn, .read 1,
    .read 0]

/-- In that run the bytes that are read are those that `writen` says it has written. -/
theorem stream_intact_failedWrite : ∃ s,
    Machine.run (step 4) (start [[7, 8, 9]] [3, 3]) failedWrite = some s ∧ Intact s ∧
      s.wrote = [⟨[7, 8, 9], 2⟩] ∧ s.got = [⟨3, 1, [7]⟩, ⟨3, 1, [8]⟩] := by
  have ends : (Machine.run (step 4) (start [[7, 8, 9]] [3, 3]) failedWrite).map
      (fun s => (s.wrote, s.got)) =
        some ([⟨[7, 8, 9], 2⟩], [⟨3, 1, [7]⟩, ⟨3, 1, [8]⟩]) := by decide
  obtain ⟨s, ran, calls⟩ := Option.map_eq_some_iff.mp ends
  obtain ⟨wrote, got⟩ := Prod.mk.inj calls
  exact ⟨s, ran, stream_intact ran, wrote, got⟩

/-! ## A transfer without failures -/

/-- The bytes that are not written yet. -/
def State.unsent (s : State) : Bytes :=
  (s.writing.map fun w => w.msg.drop (w.msg.length - w.nleft)).getD [] ++ s.toWrite.flatten

/-- How many bytes the reader still asks for. -/
def State.wanted (s : State) : Nat := (s.reading.map Reading.nleft).getD 0 + s.toRead.sum

/-- The lengths of the calls of `readn`, the one that runs and those to come included. -/
def State.asked (s : State) : List Nat :=
  s.got.map Got.n ++ (s.reading.map Reading.n).toList ++ s.toRead

/-- A state of a transfer of the messages in which nothing has failed. -/
structure Transfer (msgs : List Bytes) (s : State) : Prop where
  /-- The account of the bytes. -/
  intact : Intact s
  /-- What is sent and what is not sent yet. -/
  all : s.sent ++ s.unsent = msgs.flatten
  /-- The reader asks for the lengths of the messages. -/
  asked : s.asked = msgs.map List.length
  /-- Every call of `readn` has returned all it was asked for. -/
  full : ∀ g ∈ s.got, g.value = g.n ∧ g.buf.length = g.n
  /-- The writer closes its end when it is done. -/
  done : s.closed = true → s.writing = none ∧ s.toWrite = []

/-- How many events are left at most. -/
def State.left (s : State) : Nat :=
  s.unsent.length + s.wanted + s.toWrite.length + s.toRead.length + if s.closed then 0 else 1

/-- The reader has and asks for as many bytes as there are. -/
theorem Transfer.sizes (transfer : Transfer msgs s) :
    s.received.length + s.wanted = s.sent.length + s.unsent.length := by
  have total := congrArg List.length transfer.all
  rw [List.length_append, List.length_flatten, ← transfer.asked] at total
  have had : ((s.got.map Got.buf).map List.length) = s.got.map Got.n := by
    rw [List.map_map]
    exact List.map_congr_left fun g mem => (transfer.full g mem).2
  have running : ((s.reading.map Reading.buf).getD []).length +
      (s.reading.map Reading.nleft).getD 0 = (s.reading.map Reading.n).toList.sum := by
    cases here : s.reading with
    | none => rfl
    | some r =>
      have size := (transfer.intact.reading r here).2
      simp only [Option.map_some, Option.getD_some, Option.toList_some, List.sum_cons,
        List.sum_nil]
      omega
  rw [total, State.received, State.wanted, List.length_append, List.length_flatten, had,
    State.asked, List.sum_append, List.sum_append]
  omega

/-- The bytes in the pipe and those to come are the ones the reader still asks for. -/
theorem Transfer.wanted_eq (transfer : Transfer msgs s) :
    s.wanted = s.pipe.length + s.unsent.length := by
  have sizes := transfer.sizes
  rw [transfer.intact.stream, List.length_append] at sizes
  omega

/-- What is left of a message is what `write` takes next and what it leaves. -/
theorem Writing.chunk_append (w : Writing) (result : Int) :
    w.chunk result ++ w.msg.drop (w.msg.length - w.nleft + result.toNat) =
      w.msg.drop (w.msg.length - w.nleft) := by
  rw [Writing.chunk, ← List.drop_drop, List.take_append_drop]

/-- `write` takes a part of the message that is at least one byte long. -/
theorem Transfer.write (transfer : Transfer msgs s) (here : s.writing = some w)
    (fine : 0 < result) (most : result ≤ w.nleft) :
    Transfer msgs (writeStep s w result) ∧ (writeStep s w result).left < s.left := by
  obtain ⟨left, within⟩ := transfer.intact.writing w here
  have room : s.pipe.length + result.toNat ≤ s.pipe.length + result.toNat := Nat.le_refl _
  have stepped : step (s.pipe.length + result.toNat) s (.write result) =
      some (writeStep s w result) := by
    simp only [step, here]
    exact if_pos ⟨most, room⟩
  have intact := transfer.intact.step stepped
  obtain ⟨writing, wrote, moved, sent, turned⟩ := writeStep_eq here left within most
  have unsent : s.unsent = w.chunk result ++
      (w.msg.drop (w.msg.length - w.nleft + result.toNat) ++ s.toWrite.flatten) := by
    rw [State.unsent, here, ← List.append_assoc, w.chunk_append]
    rfl
  have size : (w.chunk result).length = result.toNat := by
    rw [Writing.chunk, List.length_take, List.length_drop]
    omega
  have after : (writeStep s w result).unsent =
      w.msg.drop (w.msg.length - w.nleft + result.toNat) ++ s.toWrite.flatten := by
    rw [moved]
    rcases turned with ⟨rfl, _, -, -, all⟩ | ⟨-, -, less, rfl⟩
    · have atEnd : w.msg.drop (w.msg.length - w.nleft + result.toNat) = [] := by
        apply List.drop_eq_nil_of_le
        have := (all fine).2
        omega
      rw [atEnd]
      rfl
    · have position : w.msg.length - (w.nleft - result.toNat) =
          w.msg.length - w.nleft + result.toNat := by omega
      rw [State.unsent, ← position]
      rfl
  have same : (writeStep s w result).reading = s.reading ∧ (writeStep s w result).got = s.got ∧
      (writeStep s w result).toRead = s.toRead ∧ (writeStep s w result).toWrite = s.toWrite ∧
      (writeStep s w result).closed = s.closed := by
    rw [moved]
    exact ⟨rfl, rfl, rfl, rfl, rfl⟩
  obtain ⟨reading, got, toRead, toWrite, closed⟩ := same
  refine ⟨⟨intact, ?_, ?_, ?_, ?_⟩, ?_⟩
  · rw [sent, after, List.append_assoc, ← unsent]
    exact transfer.all
  · rw [State.asked, got, reading, toRead]
    exact transfer.asked
  · rw [got]
    exact transfer.full
  · intro isClosed
    rw [closed] at isClosed
    have bad := (transfer.done isClosed).1
    rw [here] at bad
    cases bad
  · have longer := congrArg List.length unsent
    rw [List.length_append, size] at longer
    rw [State.left, State.left, after, State.wanted, State.wanted, reading, toRead, toWrite, closed]
    omega

/-- `read` takes a part of what is asked for that is at least one byte long. -/
theorem Transfer.read (transfer : Transfer msgs s) (here : s.reading = some r)
    (fine : 0 ≤ result) (most : result ≤ r.nleft) (there : result.toNat ≤ s.pipe.length)
    (atEnd : result = 0 → s.pipe = [] ∧ s.closed = true) :
    Transfer msgs (readStep s r result) ∧ (readStep s r result).left < s.left := by
  obtain ⟨left, total⟩ := transfer.intact.reading r here
  have stepped : step 0 s (.read result) = some (readStep s r result) := by
    simp only [step, here]
    exact if_pos ⟨most, there, atEnd⟩
  have intact := transfer.intact.step stepped
  have wanted : s.wanted = r.nleft + s.toRead.sum := by
    rw [State.wanted, here]
    rfl
  have positive : 0 < result := by
    by_contra notPositive
    have zero : result = 0 := by omega
    obtain ⟨empty, isClosed⟩ := atEnd zero
    obtain ⟨idle, done⟩ := transfer.done isClosed
    have balance := transfer.wanted_eq
    rw [wanted, empty, State.unsent, idle, done] at balance
    simp only [List.length_nil, Option.map_none, Option.getD_none, List.flatten_nil,
      List.append_nil] at balance
    omega
  obtain ⟨reading, got, moved, received, turned⟩ := readStep_eq here left total most there
  have sent : (readStep s r result).sent = s.sent ∧
      (readStep s r result).unsent = s.unsent ∧
      (readStep s r result).toRead = s.toRead ∧ (readStep s r result).toWrite = s.toWrite ∧
      (readStep s r result).closed = s.closed ∧ (readStep s r result).writing = s.writing := by
    rw [moved]
    exact ⟨rfl, rfl, rfl, rfl, rfl, rfl⟩
  obtain ⟨sent, unsent, toRead, toWrite, closed, writing⟩ := sent
  have asked : (readStep s r result).asked = s.asked := by
    rw [moved, State.asked, State.asked, here]
    rcases turned with ⟨rfl, g, rfl, same, -⟩ | ⟨-, rfl, -, rfl⟩
    · simp [same]
    · rfl
  have wanted' : (readStep s r result).wanted + result.toNat = s.wanted := by
    rw [moved, wanted, State.wanted]
    rcases turned with ⟨rfl, _, -, -, -, all⟩ | ⟨-, -, less, rfl⟩
    · have isAll := (all positive).2.2
      simp only [Option.map_none, Option.getD_none]
      omega
    · simp only [Option.map_some, Option.getD_some]
      omega
  refine ⟨⟨intact, ?_, ?_, ?_, ?_⟩, ?_⟩
  · rw [sent, unsent]
    exact transfer.all
  · rw [asked]
    exact transfer.asked
  · rw [moved]
    rcases turned with ⟨-, g, rfl, same, -, all⟩ | ⟨-, rfl, -, -⟩
    · obtain ⟨value, size, -⟩ := all positive
      refine List.forall_mem_append.mpr ⟨transfer.full, List.forall_mem_singleton.mpr ?_⟩
      rw [value, size, same]
      exact ⟨rfl, rfl⟩
    · exact transfer.full
  · rw [closed, writing, toWrite]
    exact transfer.done
  · rw [State.left, State.left, unsent, toRead, toWrite, closed]
    omega

/-- Every event of a transfer without failures goes on with it, and fewer events are left. -/
theorem Transfer.step (transfer : Transfer msgs s) (fine : event.Fine)
    (stepped : step cap s event = some s') : Transfer msgs s' ∧ s'.left < s.left := by
  have intact := transfer.intact.step stepped
  have all := transfer.all
  have asked := transfer.asked
  cases step_moves stepped with
  | callWriten msg rest idle next some_ =>
    have sent : ({ s with toWrite := rest, writing := some ⟨msg, msg.length⟩ } : State).sent =
        s.sent := by
      simp [State.sent, idle]
    have unsent : ({ s with toWrite := rest, writing := some ⟨msg, msg.length⟩ } : State).unsent =
        s.unsent := by
      simp [State.unsent, idle, next]
    refine ⟨⟨intact, ?_, asked, transfer.full, ?_⟩, ?_⟩
    · rw [sent, unsent]
      exact all
    · intro isClosed
      have bad := (transfer.done isClosed).2
      rw [next] at bad
      cases bad
    · have shorter := congrArg List.length next
      rw [List.length_cons] at shorter
      rw [State.left, State.left, unsent, State.wanted, State.wanted]
      dsimp only
      omega
  | skipWriten rest idle next =>
    have unsent : ({ s with toWrite := rest, wrote := s.wrote ++ [⟨[], 0⟩] } : State).unsent =
        s.unsent := by
      simp [State.unsent, idle, next]
    have sent : ({ s with toWrite := rest, wrote := s.wrote ++ [⟨[], 0⟩] } : State).sent =
        s.sent := by
      simp [State.sent, idle, Wrote.bytes]
    refine ⟨⟨intact, ?_, asked, transfer.full, ?_⟩, ?_⟩
    · rw [sent, unsent]
      exact all
    · intro isClosed
      have bad := (transfer.done isClosed).2
      rw [next] at bad
      cases bad
    · have shorter := congrArg List.length next
      rw [List.length_cons] at shorter
      rw [State.left, State.left, unsent, State.wanted, State.wanted]
      dsimp only
      omega
  | write w result here most room => exact transfer.write here fine most
  | close idle done isOpen =>
    refine ⟨⟨intact, all, asked, transfer.full, fun _ => ⟨idle, done⟩⟩, ?_⟩
    simp [State.left, State.unsent, State.wanted, isOpen]
  | callReadn n rest idle next some_ =>
    have wanted : ({ s with toRead := rest, reading := some ⟨n, n, []⟩ } : State).wanted =
        s.wanted := by
      simp [State.wanted, idle, next]
    refine ⟨⟨intact, all, ?_, transfer.full, transfer.done⟩, ?_⟩
    · rw [State.asked, idle, next] at asked
      simpa [State.asked] using asked
    · have shorter := congrArg List.length next
      rw [List.length_cons] at shorter
      rw [State.left, State.left, wanted, State.unsent, State.unsent]
      dsimp only
      omega
  | skipReadn rest idle next =>
    have wanted : ({ s with toRead := rest, got := s.got ++ [⟨0, 0, []⟩] } : State).wanted =
        s.wanted := by
      simp [State.wanted, idle, next]
    refine ⟨⟨intact, all, ?_, ?_, transfer.done⟩, ?_⟩
    · rw [State.asked, idle, next] at asked
      simpa [State.asked, idle] using asked
    · exact List.forall_mem_append.mpr ⟨transfer.full, List.forall_mem_singleton.mpr ⟨rfl, rfl⟩⟩
    · have shorter := congrArg List.length next
      rw [List.length_cons] at shorter
      rw [State.left, State.left, wanted, State.unsent, State.unsent]
      dsimp only
      omega
  | read r result here most there atEnd => exact transfer.read here fine most there atEnd

/-- Before the first call of a transfer. -/
theorem start_transfer (msgs : List Bytes) :
    Transfer msgs (start msgs (msgs.map List.length)) :=
  ⟨start_intact msgs _, rfl, rfl, fun _ mem => absurd mem List.not_mem_nil, fun isClosed => by
    cases isClosed⟩

/-- The call of `readn` that returns a message. -/
def Got.ofMsg (msg : Bytes) : Got := ⟨msg.length, msg.length, msg⟩

/-- Byte lists of the lengths of the first messages whose bytes are those of the messages are the
first messages. -/
theorem eq_take_of_flatten {parts : List Bytes} {rest : Bytes}
    (lengths : parts.map List.length = (msgs.take parts.length).map List.length)
    (bytes : parts.flatten ++ rest = msgs.flatten) : parts = msgs.take parts.length := by
  rw [← List.take_append_drop parts.length msgs, List.flatten_append] at bytes
  have size : parts.flatten.length = (msgs.take parts.length).flatten.length := by
    rw [List.length_flatten, List.length_flatten, lengths]
  exact List.eq_iff_flatten_eq.mpr ⟨(List.append_inj bytes size).1, lengths⟩

/-- The calls that have returned have the first messages. -/
theorem Transfer.framed (transfer : Transfer msgs s) :
    s.got = (msgs.take s.got.length).map Got.ofMsg := by
  have lengths : (s.got.map Got.buf).map List.length =
      (msgs.take (s.got.map Got.buf).length).map List.length := by
    have asked := congrArg (List.take s.got.length) transfer.asked
    rw [State.asked, List.append_assoc, List.take_left' (List.length_map ..),
      ← List.map_take] at asked
    rw [List.length_map, ← asked, List.map_map]
    exact List.map_congr_left fun g mem => (transfer.full g mem).2
  have bytes : (s.got.map Got.buf).flatten ++
      ((s.reading.map Reading.buf).getD [] ++ (s.pipe ++ s.unsent)) = msgs.flatten := by
    rw [← transfer.all, transfer.intact.stream, State.received]
    simp only [List.append_assoc]
  have first := eq_take_of_flatten lengths bytes
  rw [List.length_map] at first
  rw [← first, List.map_map]
  refine (List.map_id s.got).symm.trans (List.map_congr_left fun g mem => ?_)
  obtain ⟨value, size⟩ := transfer.full g mem
  have sameValue : g.value = g.buf.length := by rw [value, size]
  show g = ⟨g.buf.length, g.buf.length, g.buf⟩
  rw [← sameValue, size]

/-- While the transfer is not over, some event that is no failure can happen. -/
theorem Transfer.over (transfer : Transfer msgs s) (room : 0 < cap)
    (stuck : Machine.Stuck (Pipe.step cap) Event.Fine s) :
    s.closed = true ∧ s.reading = none ∧ s.toRead = [] := by
  have balance := transfer.wanted_eq
  have canRead : ∀ r, s.reading = some r → s.pipe = [] := by
    intro r here
    by_contra some_
    have long := List.length_pos_iff.mpr some_
    have left := (transfer.intact.reading r here).1
    have enabled : Pipe.step cap s (.read 1) = some (readStep s r 1) := by
      simp only [Pipe.step, here]
      exact if_pos ⟨by omega, long, fun zero => by cases zero⟩
    rw [stuck (.read 1) (Int.zero_le_ofNat 1)] at enabled
    cases enabled
  have noCall : s.reading = none → s.toRead = [] := by
    intro idle
    cases next : s.toRead with
    | nil => rfl
    | cons n rest =>
      have enabled := stuck .callReadn trivial
      simp [Pipe.step, idle, next] at enabled
  have drained : s.pipe = [] := by
    cases here : s.reading with
    | some r => exact canRead r here
    | none =>
      rw [State.wanted, here, noCall here] at balance
      simp only [Option.map_none, Option.getD_none, List.sum_nil] at balance
      exact List.eq_nil_of_length_eq_zero (by omega)
  have idle : s.writing = none := by
    cases here : s.writing with
    | none => rfl
    | some w =>
      have left := (transfer.intact.writing w here).1
      have enabled : Pipe.step cap s (.write 1) = some (writeStep s w 1) := by
        simp only [Pipe.step, here, drained]
        exact if_pos ⟨by omega, by simpa using Nat.succ_le_of_lt room⟩
      rw [stuck (.write 1) Int.one_pos] at enabled
      cases enabled
  have done : s.toWrite = [] := by
    cases next : s.toWrite with
    | nil => rfl
    | cons msg rest =>
      have enabled := stuck .callWriten trivial
      simp [Pipe.step, idle, next] at enabled
  have isClosed : s.closed = true := by
    by_contra notClosed
    have enabled := stuck .close trivial
    simp [Pipe.step, idle, done, notClosed] at enabled
  have notReading : s.reading = none := by
    cases here : s.reading with
    | none => rfl
    | some r =>
      have left := (transfer.intact.reading r here).1
      rw [State.wanted, here, drained, State.unsent, idle, done] at balance
      simp only [Option.map_some, Option.getD_some, Option.map_none, Option.getD_none,
        List.flatten_nil, List.append_nil, List.length_nil] at balance
      omega
  exact ⟨isClosed, notReading, noCall notReading⟩

/-- What a reader that asks for the lengths of the messages gets. -/
structure Framed (cap : Nat) (msgs : List Bytes) (s : State) : Prop where
  /-- Every call of `readn` that has returned has returned its own message, whole. -/
  framed : s.got = (msgs.take s.got.length).map Got.ofMsg
  /-- There is a bound on the number of events that follow. -/
  ends : ∃ n, ∀ later s', (∀ event ∈ later, event.Fine) →
    Machine.run (step cap) s later = some s' → later.length ≤ n
  /-- When no event can happen, all messages are there and the writer has closed its end. -/
  arrived : Machine.Stuck (step cap) Event.Fine s → s.got = msgs.map Got.ofMsg ∧ s.closed = true

/-- While no call fails, in whatever pieces the kernel moves the bytes and however the processes
interleave, each `readn` returns the message of its turn, and the transfer comes to its end. -/
theorem messages_framed {events : List Event} (room : 0 < cap)
    (fine : ∀ event ∈ events, event.Fine)
    (ran : Machine.run (step cap) (start msgs (msgs.map List.length)) events = some s) :
    Framed cap msgs s := by
  have lowers : ∀ s event s', Transfer msgs s → Event.Fine event → step cap s event = some s' →
      Transfer msgs s' ∧ s'.left < s.left := fun _ _ _ transfer => transfer.step
  have transfer : Transfer msgs s :=
    Machine.run_keeps_of (fun s event s' transfer isFine stepped =>
      (lowers s event s' transfer isFine stepped).1) (start_transfer msgs) fine ran
  refine ⟨transfer.framed, ⟨s.left, fun later s' isFine ran' => ?_⟩, fun stuck => ?_⟩
  · exact Machine.run_length_le_of lowers transfer isFine ran'
  · obtain ⟨isClosed, notReading, done⟩ := transfer.over room stuck
    have asked := congrArg List.length transfer.asked
    rw [State.asked, notReading, done] at asked
    simp only [Option.map_none, Option.toList_none, List.append_nil, List.length_map] at asked
    have framed := transfer.framed
    rw [asked, List.take_length] at framed
    exact ⟨framed, isClosed⟩

/-- Two messages, one of them empty; the first is written in two pieces, of which the first is read
before the second is written. -/
def twoMessages : List Event :=
  [.callWriten, .callReadn, .write 2, .read 1, .write 1, .read 1, .callWriten, .read 1, .close,
    .callReadn]

/-- In that run both messages are there. -/
theorem messages_framed_two : ∃ s,
    Machine.run (step 2) (start [[7, 8, 9], []] ([[7, 8, 9], []].map List.length)) twoMessages =
      some s ∧ Framed 2 [[7, 8, 9], []] s ∧ s.got = [⟨3, 3, [7, 8, 9]⟩, ⟨0, 0, []⟩] := by
  have fine : ∀ event ∈ twoMessages, event.Fine := by
    simp [twoMessages, Event.Fine]
  have ends : (Machine.run (step 2) (start [[7, 8, 9], []] ([[7, 8, 9], []].map List.length))
      twoMessages).map State.got = some [⟨3, 3, [7, 8, 9]⟩, ⟨0, 0, []⟩] := by decide
  obtain ⟨s, ran, got⟩ := Option.map_eq_some_iff.mp ends
  exact ⟨s, ran, messages_framed (by decide) fine ran, got⟩

end Steps

end CodeLearning.Pipe
