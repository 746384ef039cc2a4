import CodeLearning.Lib.ByteFile

/-!
# The relay of lcx

`transdata` passes bytes between two descriptors in both directions. Each direction has a
buffer of bytes that were read and not yet written. What `select`, `read` and `write` do is
the input of a round of the loop. A round may also do something whose effect C leaves open:
`memcpy` of a length `-1`, `memcpy` between overlapping areas, a `write` from before the
buffer.
-/

namespace CodeLearning.Lcx

open ByteFile

/-- `MAXSIZE`. -/
def maxsize : Nat := 10240

/-- One direction: its buffer, with what was read and written so far. -/
structure Flow where
  /-- `send_out`. -/
  sendOut : Bytes
  /-- `totalread`. -/
  totalread : Int
  /-- All bytes read. -/
  taken : Bytes
  /-- All bytes written. -/
  given : Bytes
deriving DecidableEq

/-- Result of `select`. -/
inductive Selected where
  /-- `-1`, not because of a signal. -/
  | failed
  /-- `0`. -/
  | timeout
  /-- A positive number, or `-1` after a signal. -/
  | returned
deriving DecidableEq

/-- Result of `read`. -/
inductive ReadResult where
  /-- `-1`, not because of a signal. -/
  | failed
  /-- `-1` after a signal. -/
  | interrupted
  /-- Bytes, cut to the length asked for; none at the end of the file. -/
  | data (bytes : Bytes)
deriving DecidableEq

/-- Result of `write`. -/
inductive WriteResult where
  /-- `-1`, not because of a signal. -/
  | failed
  /-- `-1` after a signal. -/
  | interrupted
  /-- A count, cut to the length asked for. -/
  | count (n : Nat)
deriving DecidableEq

/-- What one direction meets in a round. -/
structure Leg where
  /-- Its source is in the read set. -/
  readable : Bool
  /-- The result of `read`. -/
  read : ReadResult
  /-- Its sink is in the write set. -/
  writable : Bool
  /-- The results of `write`, in order. -/
  writes : List WriteResult

/-- What the system does in one round. -/
structure Round where
  /-- The result of `select`. -/
  select : Selected
  /-- From `fd1` to `fd2`. -/
  first : Leg
  /-- From `fd2` to `fd1`. -/
  second : Leg

/-- How a part of the loop ends. -/
inductive Attempt (α : Type) where
  /-- It goes on. -/
  | done (value : α)
  /-- It breaks out of the loop. -/
  | leaves (value : α)
  /-- C does not say what happens. -/
  | undefined
  /-- It waits for a result that does not come. -/
  | waits
deriving DecidableEq

/-- Go on with the next part. -/
def Attempt.andThen {α β : Type} (attempt : Attempt α) (put : α → β) (next : β → Attempt β) :
    Attempt β :=
  match attempt with
  | .done value => next (put value)
  | .leaves value => .leaves (put value)
  | .undefined => .undefined
  | .waits => .waits

/-- The part of a round that reads. -/
def readStep (f : Flow) (leg : Leg) : Attempt Flow :=
  if leg.readable ∧ f.totalread < maxsize then
    match leg.read with
    | .failed => .leaves f
    -- `memcpy` gets the length `-1`
    | .interrupted => .undefined
    | .data bytes =>
      let got := bytes.take (maxsize - f.totalread).toNat
      if got = [] then .leaves f
      else
        .done { f with
          sendOut := writeAt f.sendOut f.totalread.toNat got
          totalread := f.totalread + got.length
          taken := f.taken ++ got }
  else .done f

/-- The loop that writes, with `sendcount` bytes of the buffer written. -/
def writeLoop : List WriteResult → Int → Flow → Attempt (Int × Flow)
  | [], sendcount, f => if f.totalread > 0 then .waits else .done (sendcount, f)
  | result :: results, sendcount, f =>
    if f.totalread > 0 then
      -- the bytes would come from before the buffer
      if sendcount < 0 then .undefined
      else
        match result with
        | .failed => .leaves (sendcount, f)
        | .interrupted =>
          writeLoop results (sendcount - 1) { f with totalread := f.totalread + 1 }
        | .count n =>
          let send := min n f.totalread.toNat
          if send = 0 then .done (sendcount, f)
          else
            writeLoop results (sendcount + send)
              { f with
                totalread := f.totalread - send
                given := f.given ++ readAt f.sendOut sendcount.toNat send }
    else .done (sendcount, f)

/-- What follows the loop: move the rest to the front of the buffer, or clear the buffer. -/
def shiftDown (sendcount : Int) (f : Flow) : Attempt Flow :=
  if f.totalread > 0 ∧ sendcount > 0 then
    if f.totalread > sendcount then .undefined
    else
      let moved := writeAt f.sendOut 0 (readAt f.sendOut sendcount.toNat f.totalread.toNat)
      .done { f with
        sendOut := writeAt moved f.totalread.toNat
          (List.replicate (maxsize - f.totalread).toNat 0) }
  else .done { f with sendOut := List.replicate maxsize 0 }

/-- The part of a round that writes. -/
def writeStep (f : Flow) (leg : Leg) : Attempt Flow :=
  if leg.writable then
    match writeLoop leg.writes 0 f with
    | .done (sendcount, f) => shiftDown sendcount f
    | .leaves (_, f) => .leaves f
    | .undefined => .undefined
    | .waits => .waits
  else .done f

/-- Both directions. -/
structure Relay where
  /-- From `fd1` to `fd2`. -/
  first : Flow
  /-- From `fd2` to `fd1`. -/
  second : Flow
deriving DecidableEq

/-- A round of one direction. -/
def flowStep (f : Flow) (leg : Leg) : Attempt Flow :=
  (readStep f leg).andThen id fun f => writeStep f leg

/-- A round of the loop. -/
def round (s : Relay) (r : Round) : Attempt Relay :=
  if r.select = .returned then
    (flowStep s.first r.first).andThen (fun f => { s with first := f }) fun s =>
      (flowStep s.second r.second).andThen (fun f => { s with second := f }) .done
  else .leaves s

/-- Rounds of the loop. -/
def transdata : Relay → List Round → Attempt Relay
  | s, [] => .done s
  | s, r :: rounds => (round s r).andThen id fun s => transdata s rounds

/-- A direction before the loop. -/
def flowStart : Flow := ⟨List.replicate maxsize 0, 0, [], []⟩

/-- Both directions before the loop. -/
def relayStart : Relay := ⟨flowStart, flowStart⟩

/-! ## One direction -/

section Flow

variable {f f' : Flow} {leg : Leg} {results : List WriteResult} {sendcount c : Int}

/-- Nothing is lost, repeated or altered. -/
structure Intact (f : Flow) : Prop where
  /-- The buffer keeps its size. -/
  size : f.sendOut.length = maxsize
  /-- The count is not negative. -/
  nonneg : 0 ≤ f.totalread
  /-- The count is within the buffer. -/
  bound : f.totalread ≤ maxsize
  /-- What was written and what waits is what was read. -/
  stream : f.given ++ f.sendOut.take f.totalread.toNat = f.taken

/-- A direction starts intact. -/
theorem intact_start : Intact flowStart :=
  ⟨List.length_replicate, by decide, by decide, by simp [flowStart]⟩

/-- The front of a buffer after a write behind it. -/
theorem take_writeAt {file bytes : Bytes} {off : Nat} (noGap : off ≤ file.length) :
    (writeAt file off bytes).take (off + bytes.length) = file.take off ++ bytes := by
  rw [writeAt, Nat.sub_eq_zero_of_le noGap, List.replicate_zero, List.append_nil,
    List.take_append_of_le_length (by simp [noGap]), List.take_of_length_le (by simp [noGap])]

/-- The front of a buffer before a write. -/
theorem take_before_writeAt {file bytes : Bytes} {off : Nat} (noGap : off ≤ file.length) :
    (writeAt file off bytes).take off = file.take off := by
  have whole : (writeAt file off bytes).take (off + bytes.length) = file.take off ++ bytes :=
    take_writeAt noGap
  have longer := congrArg (List.take off) whole
  rw [List.take_take, Nat.min_eq_left (Nat.le_add_right ..)] at longer
  rw [longer, List.take_append_of_le_length (by simp [noGap]), List.take_take, Nat.min_self]

/-- Reading keeps a direction intact, unless it is interrupted. -/
theorem Intact.readStep (intact : Intact f)
    (fine : leg.readable = true → f.totalread < maxsize → leg.read ≠ .interrupted) :
    readStep f leg ≠ .undefined ∧ ∀ f', readStep f leg = .done f' → Intact f' := by
  unfold Lcx.readStep
  split
  · rename_i reads
    have notInterrupted := fine reads.1 reads.2
    cases result : leg.read with
    | failed => simp
    | interrupted => exact absurd result notInterrupted
    | data bytes =>
      dsimp only
      split
      · simp
      · refine ⟨by simp, ?_⟩
        rintro f' ended
        obtain rfl := Attempt.done.inj ended
        have nonneg := intact.nonneg
        have short : (bytes.take (maxsize - f.totalread).toNat).length ≤
            (maxsize - f.totalread).toNat := List.length_take_le _ _
        generalize bytes.take (maxsize - f.totalread).toNat = got at short
        have noGap : f.totalread.toNat ≤ f.sendOut.length := by
          rw [intact.size]
          omega
        have count : (f.totalread + got.length).toNat = f.totalread.toNat + got.length := by
          omega
        refine ⟨?_, ?_, ?_, ?_⟩
        · simp only [length_writeAt, intact.size]
          omega
        · simp only
          omega
        · simp only
          omega
        · simp only [count, take_writeAt noGap]
          rw [← List.append_assoc, intact.stream]
  · refine ⟨by simp, ?_⟩
    rintro f' ended
    obtain rfl := Attempt.done.inj ended
    exact intact

/-- A direction within the loop that writes. -/
structure Midway (sendcount : Int) (f : Flow) : Prop where
  /-- The buffer keeps its size. -/
  size : f.sendOut.length = maxsize
  /-- The written bytes are not negative. -/
  sent : 0 ≤ sendcount
  /-- The count is not negative. -/
  nonneg : 0 ≤ f.totalread
  /-- The rest is within the buffer. -/
  bound : sendcount + f.totalread ≤ maxsize
  /-- What was written and the rest is what was read. -/
  stream : f.given ++ readAt f.sendOut sendcount.toNat f.totalread.toNat = f.taken

/-- Results of `write` with `total` bytes to go and `sent` bytes written: no call is
interrupted, and when a call writes nothing, no more bytes are left than were written. -/
def WritesFine : List WriteResult → (sent total : Int) → Prop
  | [], _, _ => True
  | result :: results, sent, total =>
    total > 0 →
      match result with
      | .failed => True
      | .interrupted => False
      | .count n =>
        if min n total.toNat = 0 then total ≤ sent
        else WritesFine results (sent + min n total.toNat) (total - min n total.toNat)

/-- Bytes of the buffer are written from the front. -/
theorem readAt_split {file : Bytes} {off first len : Nat} (short : first ≤ len) :
    readAt file off len = readAt file off first ++ readAt file (off + first) (len - first) := by
  obtain ⟨rest, rfl⟩ := Nat.exists_eq_add_of_le short
  rw [readAt, readAt, readAt, List.take_add, List.drop_drop, Nat.add_sub_cancel_left]

/-- The loop keeps a direction in order, and what is left then fits beside what was written. -/
theorem Midway.writeLoop (midway : Midway sendcount f)
    (fine : WritesFine results sendcount f.totalread) :
    writeLoop results sendcount f ≠ .undefined ∧
      ∀ c f', writeLoop results sendcount f = .done (c, f') →
        Midway c f' ∧ (f'.totalread > 0 → f'.totalread ≤ c) := by
  have ended : ∀ c f', (Attempt.done (sendcount, f) : Attempt (Int × Flow)) = .done (c, f') →
      c = sendcount ∧ f' = f := by
    intro c f' same
    obtain ⟨rfl, rfl⟩ := Prod.mk.inj (Attempt.done.inj same)
    exact ⟨rfl, rfl⟩
  induction results generalizing sendcount f with
  | nil =>
    unfold Lcx.writeLoop
    split
    · simp
    · refine ⟨by simp, fun c f' same => ?_⟩
      obtain ⟨rfl, rfl⟩ := ended c f' same
      exact ⟨midway, fun positive => absurd positive ‹_›⟩
  | cons result results rest =>
    unfold Lcx.writeLoop
    split
    · rename_i positive
      have sent := midway.sent
      rw [if_neg (by omega)]
      have here := fine positive
      cases result with
      | failed => simp
      | interrupted => exact here.elim
      | count n =>
        dsimp only at here ⊢
        split at here
        · rename_i none_
          rw [if_pos none_]
          refine ⟨by simp, fun c f' same => ?_⟩
          obtain ⟨rfl, rfl⟩ := ended c f' same
          exact ⟨midway, fun _ => here⟩
        · rename_i some_
          rw [if_neg some_]
          have nonneg := midway.nonneg
          have bound := midway.bound
          have short : min n f.totalread.toNat ≤ f.totalread.toNat := Nat.min_le_right ..
          generalize min n f.totalread.toNat = send at short here some_
          apply rest _ here
          · rintro c f' same
            obtain ⟨rfl, rfl⟩ := Prod.mk.inj (Attempt.done.inj same)
            exact ⟨rfl, rfl⟩
          · refine ⟨midway.size, by omega, ?_, ?_, ?_⟩
            · simp only
              omega
            · simp only
              omega
            · have offset : (sendcount + send).toNat = sendcount.toNat + send := by omega
              have left : (f.totalread - send).toNat = f.totalread.toNat - send := by omega
              simp only [offset, left]
              rw [List.append_assoc, ← readAt_split short, midway.stream]
    · refine ⟨by simp, fun c f' same => ?_⟩
      obtain ⟨rfl, rfl⟩ := ended c f' same
      exact ⟨midway, fun positive => absurd positive ‹_›⟩

/-- What follows the loop makes a direction intact again. -/
theorem Midway.shiftDown (midway : Midway sendcount f)
    (apart : f.totalread > 0 → f.totalread ≤ sendcount) :
    shiftDown sendcount f ≠ .undefined ∧
      ∀ f', shiftDown sendcount f = .done f' → Intact f' := by
  have nonneg := midway.nonneg
  have bound := midway.bound
  have sent := midway.sent
  unfold Lcx.shiftDown
  split
  · rename_i rest
    rw [if_neg (by have := apart rest.1; omega)]
    refine ⟨by simp, ?_⟩
    rintro f' same
    obtain rfl := Attempt.done.inj same
    have stream := midway.stream
    have size := midway.size
    have length : (readAt f.sendOut sendcount.toNat f.totalread.toNat).length =
        f.totalread.toNat := by
      simp only [readAt, List.length_take, List.length_drop, size]
      omega
    generalize readAt f.sendOut sendcount.toNat f.totalread.toNat = moved at stream length
    have movedSize : (writeAt f.sendOut 0 moved).length = maxsize := by
      rw [length_writeAt, size]
      omega
    have front : (writeAt f.sendOut 0 moved).take f.totalread.toNat = moved := by
      have whole : (writeAt f.sendOut 0 moved).take (0 + moved.length) =
          f.sendOut.take 0 ++ moved := take_writeAt (Nat.zero_le f.sendOut.length)
      rw [Nat.zero_add, length, List.take_zero, List.nil_append] at whole
      exact whole
    refine ⟨?_, nonneg, by simp only; omega, ?_⟩
    · simp only [length_writeAt, movedSize, List.length_replicate]
      omega
    · simp only
      rw [take_before_writeAt (by omega), front]
      exact stream
  · rename_i none_
    refine ⟨by simp, ?_⟩
    rintro f' same
    obtain rfl := Attempt.done.inj same
    have zero : f.totalread = 0 := by
      by_contra nonzero
      have positive : f.totalread > 0 := by omega
      have := apart positive
      exact none_ ⟨positive, by omega⟩
    refine ⟨List.length_replicate, nonneg, by simp only; omega, ?_⟩
    have stream := midway.stream
    simp only [zero, readAt, Int.toNat_zero, List.take_zero] at stream ⊢
    exact stream

/-- Writing keeps a direction intact. -/
theorem Intact.writeStep (intact : Intact f)
    (fine : leg.writable = true → WritesFine leg.writes 0 f.totalread) :
    writeStep f leg ≠ .undefined ∧ ∀ f', writeStep f leg = .done f' → Intact f' := by
  unfold Lcx.writeStep
  split
  · rename_i writes
    have start : Midway 0 f := by
      refine ⟨intact.size, Int.le_refl _, intact.nonneg, ?_, ?_⟩
      · rw [Int.zero_add]
        exact intact.bound
      · exact intact.stream
    obtain ⟨defined, ends⟩ := start.writeLoop (fine writes)
    cases loop : writeLoop leg.writes 0 f with
    | done value =>
      obtain ⟨midway, apart⟩ := ends value.1 value.2 loop
      exact midway.shiftDown apart
    | leaves value => simp
    | undefined => exact absurd loop defined
    | waits => simp
  · refine ⟨by simp, ?_⟩
    rintro f' same
    obtain rfl := Attempt.done.inj same
    exact intact

/-- The bytes to write in a round, with those it reads. -/
def toWrite (f : Flow) (leg : Leg) : Int :=
  if leg.readable ∧ f.totalread < maxsize then
    match leg.read with
    | .data bytes => f.totalread + (bytes.take (maxsize - f.totalread).toNat).length
    | _ => f.totalread
  else f.totalread

/-- A round in which no call is interrupted, and no `write` writes nothing while more bytes
are left than were written before it. -/
structure FineLeg (f : Flow) (leg : Leg) : Prop where
  /-- Reading is not interrupted. -/
  reads : leg.readable = true → f.totalread < maxsize → leg.read ≠ .interrupted
  /-- The calls of `write` suit the bytes to write. -/
  writes : leg.writable = true → WritesFine leg.writes 0 (toWrite f leg)

/-- The count after reading. -/
theorem readStep_totalread (ended : readStep f leg = .done f') :
    f'.totalread = toWrite f leg := by
  unfold readStep at ended
  unfold toWrite
  split at ended
  · cases result : leg.read with
    | failed => simp [result] at ended
    | interrupted => simp [result] at ended
    | data bytes =>
      simp only [result] at ended
      split at ended
      · simp at ended
      · obtain rfl := Attempt.done.inj ended
        simp [*]
  · obtain rfl := Attempt.done.inj ended
    rw [if_neg ‹_›]

/-- A fine round keeps a direction intact. -/
theorem Intact.flowStep (intact : Intact f) (fine : FineLeg f leg) :
    flowStep f leg ≠ .undefined ∧ ∀ f', flowStep f leg = .done f' → Intact f' := by
  obtain ⟨defined, reads⟩ := intact.readStep fine.reads
  unfold Lcx.flowStep
  cases step : Lcx.readStep f leg with
  | done middle =>
    have count := readStep_totalread step
    exact (reads middle step).writeStep fun writable => count ▸ fine.writes writable
  | leaves value => simp [Attempt.andThen]
  | undefined => exact absurd step defined
  | waits => simp [Attempt.andThen]

end Flow

/-! ## Both directions -/

/-- Both directions are intact. -/
structure Relay.Intact (s : Relay) : Prop where
  /-- From `fd1` to `fd2`. -/
  first : Lcx.Intact s.first
  /-- From `fd2` to `fd1`. -/
  second : Lcx.Intact s.second

/-- A round that is fine in both directions, as far as it gets. -/
structure FineRound (s : Relay) (r : Round) : Prop where
  /-- From `fd1` to `fd2`. -/
  first : r.select = .returned → FineLeg s.first r.first
  /-- From `fd2` to `fd1`. -/
  second : r.select = .returned → (∃ f, flowStep s.first r.first = .done f) →
    FineLeg s.second r.second

/-- Every round is fine in the state it starts in. -/
def FineRun : Relay → List Round → Prop
  | _, [] => True
  | s, r :: rounds => FineRound s r ∧ ∀ s', round s r = .done s' → FineRun s' rounds

/-- A fine round keeps both directions intact. -/
theorem Relay.Intact.round {s : Relay} {r : Round} (intact : s.Intact) (fine : FineRound s r) :
    round s r ≠ .undefined ∧ ∀ s', round s r = .done s' → s'.Intact := by
  unfold Lcx.round
  split
  · rename_i returned
    obtain ⟨firstDefined, firstEnds⟩ := intact.first.flowStep (fine.first returned)
    cases one : flowStep s.first r.first with
    | done f =>
      obtain ⟨secondDefined, secondEnds⟩ :=
        intact.second.flowStep (fine.second returned ⟨f, one⟩)
      dsimp only [Attempt.andThen]
      cases two : flowStep s.second r.second with
      | done g =>
        refine ⟨by simp, ?_⟩
        rintro s' ended
        obtain rfl := Attempt.done.inj ended
        exact ⟨firstEnds f one, secondEnds g two⟩
      | leaves value => simp
      | undefined => exact absurd two secondDefined
      | waits => simp
    | leaves value => simp [Attempt.andThen]
    | undefined => exact absurd one firstDefined
    | waits => simp [Attempt.andThen]
  · simp

/-- Fine rounds keep both directions intact. -/
theorem Relay.Intact.transdata {s : Relay} {rounds : List Round} (intact : s.Intact)
    (fine : FineRun s rounds) :
    transdata s rounds ≠ .undefined ∧ ∀ s', transdata s rounds = .done s' → s'.Intact := by
  induction rounds generalizing s with
  | nil =>
    refine ⟨by simp [Lcx.transdata], ?_⟩
    rintro s' ended
    obtain rfl := Attempt.done.inj ended
    exact intact
  | cons r rounds rest =>
    obtain ⟨defined, ends⟩ := intact.round fine.1
    unfold Lcx.transdata
    cases one : Lcx.round s r with
    | done middle => exact rest (ends middle one) (fine.2 middle one)
    | leaves value => simp [Attempt.andThen]
    | undefined => exact absurd one defined
    | waits => simp [Attempt.andThen]

/-- In every run of fine rounds, what was written followed by what waits is what was read, in
both directions and after every round, and the counts stay within the buffers. -/
theorem relay_intact (rounds : List Round) (fine : FineRun relayStart rounds) :
    transdata relayStart rounds ≠ .undefined ∧
      ∀ s, transdata relayStart rounds = .done s → s.Intact :=
  Relay.Intact.transdata ⟨intact_start, intact_start⟩ fine

/-- A direction in which nothing happens. -/
def idle : Leg := ⟨false, .data [], false, []⟩

/-- Nothing happens in a direction. -/
theorem flowStep_idle (f : Flow) : flowStep f idle = .done f := by
  simp [flowStep, readStep, writeStep, idle, Attempt.andThen]

/-- Three bytes arrive, two of them are written, then `write` writes nothing. -/
def shortWrite : Leg := ⟨true, .data [1, 2, 3], true, [.count 2, .count 0]⟩

/-- A round with a short write is fine, and relays intact. -/
theorem relay_intact_short_write :
    FineRun relayStart [⟨.returned, shortWrite, idle⟩] ∧
      ∀ s, transdata relayStart [⟨.returned, shortWrite, idle⟩] = .done s → s.Intact := by
  have fine : FineRun relayStart [⟨.returned, shortWrite, idle⟩] := by
    refine ⟨⟨fun _ => ⟨?_, ?_⟩, fun _ _ => ⟨?_, ?_⟩⟩, fun _ _ => trivial⟩
    · simp [shortWrite]
    · simp [-List.reduceReplicate, shortWrite, WritesFine, toWrite, relayStart, flowStart,
        maxsize]
    · simp [idle]
    · simp [idle]
  exact ⟨fine, (relay_intact _ fine).2⟩

/-- One byte arrives and `write` writes nothing. -/
def noWrite : Leg := ⟨true, .data [1], true, [.count 0]⟩

/-- When the first `write` writes nothing, the byte that waits is cleared. -/
theorem relay_clears_pending :
    ∃ s, transdata relayStart [⟨.returned, noWrite, idle⟩] = .done s ∧
      s.first.taken = [1] ∧ s.first.given = [] ∧ s.first.totalread = 1 ∧
      s.first.sendOut.take 1 = [0] ∧ ¬ s.Intact := by
  have step : flowStep flowStart noWrite =
      .done ⟨List.replicate maxsize 0, 1, [1], []⟩ := by
    simp [-List.reduceReplicate, flowStep, readStep, writeStep, writeLoop, shiftDown, noWrite,
      flowStart, maxsize, Attempt.andThen]
  have first : List.take 1 (List.replicate maxsize (0 : UInt8)) = [0] := by
    rw [List.take_replicate]
    rfl
  refine ⟨⟨⟨List.replicate maxsize 0, 1, [1], []⟩, flowStart⟩, ?_, rfl, rfl, rfl, first, ?_⟩
  · simp [transdata, round, relayStart, step, flowStep_idle, Attempt.andThen]
  · intro intact
    have stream : [] ++ List.take 1 (List.replicate maxsize (0 : UInt8)) = [1] :=
      intact.first.stream
    rw [first] at stream
    exact absurd stream (by decide)

end CodeLearning.Lcx
