import CodeLearning.Lcx.Transdata

/-!
# The end of the relay

At the end of a file `transdata` leaves its loop at once. The bytes that wait in a buffer then
are exactly those that arrived since the peer was last ready to take bytes, so they are lost
when a direction had its source ready and its sink not ready in its last rounds.
-/

namespace CodeLearning.Lcx

open ByteFile

/-- Every `read` of the round gives bytes. -/
def ReadsPositive (leg : Leg) : Prop := ∃ byte bytes, leg.read = .data (byte :: bytes)

/-- Every `write` of the round writes bytes. -/
def WritesPositive (leg : Leg) : Prop := ∀ result ∈ leg.writes, ∃ n, result = .count (n + 1)

/-- The source of the round is at the end of its file. -/
def AtEnd (leg : Leg) : Prop := leg.readable = true ∧ leg.read = .data []

/-- A round in which reads and writes return positive counts. -/
structure PlainRound (r : Round) : Prop where
  /-- `select` returns. -/
  select : r.select = .returned
  /-- Reads from `fd1`. -/
  firstReads : ReadsPositive r.first
  /-- Writes to `fd2`. -/
  firstWrites : WritesPositive r.first
  /-- Reads from `fd2`. -/
  secondReads : ReadsPositive r.second
  /-- Writes to `fd1`. -/
  secondWrites : WritesPositive r.second

/-- A round in which `fd1` reports the end of its file. -/
structure FirstEnds (r : Round) : Prop where
  /-- `select` returns. -/
  select : r.select = .returned
  /-- The end of `fd1`. -/
  firstEnd : AtEnd r.first
  /-- Writes to `fd2`. -/
  firstWrites : WritesPositive r.first
  /-- Reads from `fd2`. -/
  secondReads : ReadsPositive r.second
  /-- Writes to `fd1`. -/
  secondWrites : WritesPositive r.second

/-- A round in which `fd2` reports the end of its file. -/
structure SecondEnds (r : Round) : Prop where
  /-- `select` returns. -/
  select : r.select = .returned
  /-- Reads from `fd1`. -/
  firstReads : ReadsPositive r.first
  /-- Writes to `fd2`. -/
  firstWrites : WritesPositive r.first
  /-- The end of `fd2`. -/
  secondEnd : AtEnd r.second
  /-- Writes to `fd1`. -/
  secondWrites : WritesPositive r.second

/-- Everything read was written. -/
def Relay.Drained (s : Relay) : Prop :=
  s.first.given = s.first.taken ∧ s.second.given = s.second.taken

/-- Whether a direction waits after a round: its sink was not ready, and its source was or bytes
waited before. -/
def waits (before : Bool) (leg : Leg) : Bool := !leg.writable && (before || leg.readable)

/-- Whether a direction waits after these rounds: its source was ready in one of them, and its
sink neither in that round nor later. -/
def waiting (legs : List Leg) : Bool := legs.foldl waits false

section Flow

variable {f f' : Flow} {leg : Leg} {results : List WriteResult} {sendcount c : Int} {w : Bool}

/-- Positive counts suit any number of bytes. -/
theorem writesFine_of_positive {sent total : Int}
    (positive : ∀ result ∈ results, ∃ n, result = .count (n + 1)) :
    WritesFine results sent total := by
  induction results generalizing sent total with
  | nil => trivial
  | cons result results rest =>
    intro more
    obtain ⟨n, rfl⟩ := positive result List.mem_cons_self
    dsimp only
    rw [if_neg (by omega)]
    exact rest fun other mem => positive other (List.mem_cons_of_mem _ mem)

/-- A loop of positive counts ends with nothing left to write, and does not leave. -/
theorem writeLoop_positive (f : Flow)
    (positive : ∀ result ∈ results, ∃ n, result = .count (n + 1))
    (sent : 0 ≤ sendcount) :
    (∀ value, writeLoop results sendcount f ≠ .leaves value) ∧
      ∀ c f', writeLoop results sendcount f = .done (c, f') → f'.totalread ≤ 0 := by
  have stops : ¬ f.totalread > 0 → ∀ c f',
      (Attempt.done (sendcount, f) : Attempt (Int × Flow)) = .done (c, f') →
        f'.totalread ≤ 0 := by
    intro done c f' same
    obtain ⟨rfl, rfl⟩ := Prod.mk.inj (Attempt.done.inj same)
    omega
  induction results generalizing sendcount f with
  | nil =>
    unfold writeLoop
    split
    · simp
    · exact ⟨by simp, stops ‹_›⟩
  | cons result results rest =>
    obtain ⟨n, rfl⟩ := positive result List.mem_cons_self
    unfold writeLoop
    split
    · rw [if_neg (by omega)]
      dsimp only
      rw [if_neg (by omega)]
      apply rest _ fun other mem => positive other (List.mem_cons_of_mem _ mem)
      · omega
      · intro done c f' same
        obtain ⟨rfl, rfl⟩ := Prod.mk.inj (Attempt.done.inj same)
        omega
    · exact ⟨by simp, stops ‹_›⟩

/-- What follows the loop does not leave and keeps the count. -/
theorem shiftDown_totalread (sendcount : Int) (f : Flow) :
    (∀ value, shiftDown sendcount f ≠ .leaves value) ∧
      ∀ f', shiftDown sendcount f = .done f' → f'.totalread = f.totalread := by
  unfold shiftDown
  split
  · split
    · simp
    · refine ⟨by simp, ?_⟩
      rintro f' same
      obtain rfl := Attempt.done.inj same
      rfl
  · refine ⟨by simp, ?_⟩
    rintro f' same
    obtain rfl := Attempt.done.inj same
    rfl

/-- Positive writes do not leave, and empty the buffer when the sink is ready. -/
theorem writeStep_positive (f : Flow) (positive : WritesPositive leg) :
    (∀ value, writeStep f leg ≠ .leaves value) ∧
      ∀ f', writeStep f leg = .done f' →
        if leg.writable then f'.totalread ≤ 0 else f' = f := by
  unfold writeStep
  split
  · obtain ⟨stays, empties⟩ := writeLoop_positive f positive (Int.le_refl 0)
    cases loop : writeLoop leg.writes 0 f with
    | done value =>
      obtain ⟨keeps, count⟩ := shiftDown_totalread value.1 value.2
      refine ⟨keeps, fun f' same => ?_⟩
      rw [count f' same]
      exact empties value.1 value.2 loop
    | leaves value => exact absurd loop (stays value)
    | undefined => simp
    | waits => simp
  · refine ⟨by simp, ?_⟩
    rintro f' same
    obtain rfl := Attempt.done.inj same
    rfl

/-- A positive read does not leave, and the buffer then holds bytes when it did before or the
source was ready. -/
theorem readStep_positive (intact : Intact f) (positive : ReadsPositive leg) :
    (∀ value, readStep f leg ≠ .leaves value) ∧
      ∀ f', readStep f leg = .done f' →
        (0 < f'.totalread ↔ 0 < f.totalread ∨ leg.readable = true) := by
  obtain ⟨byte, bytes, got⟩ := positive
  have nonneg := intact.nonneg
  unfold readStep
  split
  · rename_i reads
    have room : (maxsize - f.totalread).toNat ≠ 0 := by omega
    have some_ : (byte :: bytes).take (maxsize - f.totalread).toNat ≠ [] := by
      simp [List.take_eq_nil_iff, room]
    rw [got]
    dsimp only
    rw [if_neg some_]
    refine ⟨by simp, ?_⟩
    rintro f' same
    obtain rfl := Attempt.done.inj same
    have long := List.length_pos_iff.mpr some_
    simp only [reads.1, or_true, iff_true]
    omega
  · rename_i skips
    refine ⟨by simp, ?_⟩
    rintro f' same
    obtain rfl := Attempt.done.inj same
    -- the source is not ready, or the buffer is full
    constructor
    · exact Or.inl
    · rintro (some_ | ready)
      · exact some_
      · have full : ¬ f.totalread < maxsize := fun room => skips ⟨ready, room⟩
        have : (0 : Int) < maxsize := by decide
        omega

/-- A direction and whether it waits. -/
structure Tracked (f : Flow) (w : Bool) : Prop where
  /-- It is intact. -/
  intact : Intact f
  /-- It holds bytes exactly when it waits. -/
  pending : 0 < f.totalread ↔ w = true

/-- A direction that is tracked has written everything exactly when it does not wait. -/
theorem Tracked.given_eq_taken_iff (tracked : Tracked f w) :
    f.given = f.taken ↔ w = false := by
  have stream := tracked.intact.stream
  have nonneg := tracked.intact.nonneg
  have room : f.totalread.toNat ≤ f.sendOut.length := by
    rw [tracked.intact.size]
    have := tracked.intact.bound
    omega
  have lengths := congrArg List.length stream
  rw [List.length_append, List.length_take, Nat.min_eq_left room] at lengths
  constructor
  · intro same
    rw [same] at lengths
    have zero : ¬ 0 < f.totalread := by omega
    exact Bool.eq_false_iff.mpr fun waits => zero (tracked.pending.mpr waits)
  · intro quiet
    have zero : f.totalread = 0 := by
      have : ¬ 0 < f.totalread := fun some_ => by simp [tracked.pending.mp some_] at quiet
      omega
    rw [zero, Int.toNat_zero, List.take_zero, List.append_nil] at stream
    exact stream

/-- A round of positive counts is fine. -/
theorem fineLeg_of_positive (reads : leg.read ≠ .interrupted) (writes : WritesPositive leg) :
    FineLeg f leg :=
  ⟨fun _ _ => reads, fun _ => writesFine_of_positive writes⟩

/-- A round of positive counts does not leave, and tracks the direction. -/
theorem Tracked.flowStep (tracked : Tracked f w) (reads : ReadsPositive leg)
    (writes : WritesPositive leg) :
    (∀ value, flowStep f leg ≠ .leaves value) ∧
      ∀ f', flowStep f leg = .done f' → Tracked f' (waits w leg) := by
  have fine : FineLeg f leg := by
    refine fineLeg_of_positive ?_ writes
    obtain ⟨byte, bytes, got⟩ := reads
    simp [got]
  have kept := tracked.intact.flowStep fine
  obtain ⟨stays, count⟩ := readStep_positive tracked.intact reads
  unfold Lcx.flowStep at kept ⊢
  cases step : readStep f leg with
  | done middle =>
    rw [step] at kept
    obtain ⟨writeStays, empties⟩ := writeStep_positive middle writes
    refine ⟨writeStays, fun f' same => ⟨kept.2 f' same, ?_⟩⟩
    have after := empties f' same
    cases writable : leg.writable with
    | true =>
      rw [writable, if_pos rfl] at after
      simp [waits, writable, after]
    | false =>
      rw [writable, if_neg (by decide)] at after
      rw [after, count middle step, tracked.pending]
      simp [waits, writable]
  | leaves value => exact absurd step (stays value)
  | undefined => simp [Attempt.andThen]
  | waits => simp [Attempt.andThen]

/-- At the end of the file the direction is left as it is, or its buffer is full and it goes
on. -/
theorem flowStep_atEnd {value : Flow} (atEnd : AtEnd leg) (writes : WritesPositive leg)
    (same : flowStep f leg = .leaves value) : value = f := by
  unfold flowStep readStep at same
  split at same
  · rw [atEnd.2] at same
    simp only [List.take_nil, ↓reduceIte, Attempt.andThen, id_eq] at same
    exact (Attempt.leaves.inj same).symm
  · exact absurd same ((writeStep_positive f writes).1 value)

end Flow

/-! ## Both directions -/

section Relay

variable {s s' : Relay} {r : Round} {rounds : List Round} {one two : Bool}

/-- Both directions are tracked. -/
structure Relay.Tracked (s : Relay) (one two : Bool) : Prop where
  /-- From `fd1` to `fd2`. -/
  first : Lcx.Tracked s.first one
  /-- From `fd2` to `fd1`. -/
  second : Lcx.Tracked s.second two

/-- Both directions start tracked, with nothing waiting. -/
theorem relayStart_tracked : relayStart.Tracked false false := by
  have start : Tracked flowStart false := ⟨intact_start, by decide⟩
  exact ⟨start, start⟩

/-- The parts of a round that goes on or is left. -/
theorem round_cases (returned : r.select = .returned) :
    (∀ s', round s r = .done s' →
      flowStep s.first r.first = .done s'.first ∧
        flowStep s.second r.second = .done s'.second) ∧
    ∀ s', round s r = .leaves s' →
      (flowStep s.first r.first = .leaves s'.first ∧ s'.second = s.second) ∨
        (flowStep s.first r.first = .done s'.first ∧
          flowStep s.second r.second = .leaves s'.second) := by
  unfold round
  rw [if_pos returned]
  cases flowStep s.first r.first with
  | done f =>
    dsimp only [Attempt.andThen]
    cases flowStep s.second r.second with
    | done g =>
      refine ⟨?_, by simp⟩
      rintro s' same
      obtain rfl := Attempt.done.inj same
      exact ⟨rfl, rfl⟩
    | leaves g =>
      refine ⟨by simp, ?_⟩
      rintro s' same
      obtain rfl := Attempt.leaves.inj same
      exact Or.inr ⟨rfl, rfl⟩
    | undefined => simp
    | waits => simp
  | leaves f =>
    dsimp only [Attempt.andThen]
    refine ⟨by simp, ?_⟩
    rintro s' same
    obtain rfl := Attempt.leaves.inj same
    exact Or.inl ⟨rfl, rfl⟩
  | undefined => simp [Attempt.andThen]
  | waits => simp [Attempt.andThen]

/-- A round of positive counts goes on and tracks both directions. -/
theorem Relay.Tracked.round (tracked : s.Tracked one two) (plain : PlainRound r) :
    (∀ s', round s r ≠ .leaves s') ∧
      ∀ s', round s r = .done s' → s'.Tracked (waits one r.first) (waits two r.second) := by
  obtain ⟨firstStays, firstTracks⟩ := tracked.first.flowStep plain.firstReads plain.firstWrites
  obtain ⟨secondStays, secondTracks⟩ :=
    tracked.second.flowStep plain.secondReads plain.secondWrites
  obtain ⟨goes, leaves⟩ := round_cases (s := s) plain.select
  constructor
  · intro s' left
    obtain ⟨first, -⟩ | ⟨-, second⟩ := leaves s' left
    · exact firstStays _ first
    · exact secondStays _ second
  · intro s' gone
    obtain ⟨first, second⟩ := goes s' gone
    exact ⟨firstTracks _ first, secondTracks _ second⟩

/-- Rounds of positive counts go on and track both directions. -/
theorem Relay.Tracked.transdata (tracked : s.Tracked one two)
    (plain : ∀ r ∈ rounds, PlainRound r) :
    (∀ s', transdata s rounds ≠ .leaves s') ∧
      ∀ s', transdata s rounds = .done s' →
        s'.Tracked ((rounds.map Round.first).foldl waits one)
          ((rounds.map Round.second).foldl waits two) := by
  induction rounds generalizing s one two with
  | nil =>
    refine ⟨by simp [Lcx.transdata], ?_⟩
    rintro s' same
    obtain rfl := Attempt.done.inj same
    exact tracked
  | cons r rounds rest =>
    obtain ⟨stays, tracks⟩ := tracked.round (plain r List.mem_cons_self)
    unfold Lcx.transdata
    cases step : Lcx.round s r with
    | done middle =>
      exact rest (tracks middle step) fun other mem => plain other (List.mem_cons_of_mem _ mem)
    | leaves value => exact absurd step (stays value)
    | undefined => simp [Attempt.andThen]
    | waits => simp [Attempt.andThen]

/-- A last round follows the others. -/
theorem transdata_append :
    transdata s (rounds ++ [r]) = (transdata s rounds).andThen id fun s => round s r := by
  induction rounds generalizing s with
  | nil =>
    simp only [List.nil_append, transdata, Attempt.andThen, id_eq]
    cases round s r <;> rfl
  | cons first rounds rest =>
    rw [List.cons_append, transdata, transdata]
    cases round s first with
    | done middle => exact rest
    | leaves value => rfl
    | undefined => rfl
    | waits => rfl

/-- A run that is left in its last round went on until then. -/
theorem transdata_left (tracked : s.Tracked one two) (plain : ∀ r ∈ rounds, PlainRound r)
    (left : transdata s (rounds ++ [r]) = .leaves s') :
    ∃ middle, middle.Tracked ((rounds.map Round.first).foldl waits one)
        ((rounds.map Round.second).foldl waits two) ∧ round middle r = .leaves s' := by
  obtain ⟨stays, tracks⟩ := tracked.transdata plain
  rw [transdata_append] at left
  cases run : transdata s rounds with
  | done middle =>
    rw [run] at left
    exact ⟨middle, tracks middle run, left⟩
  | leaves value => exact absurd run (stays value)
  | undefined => simp [run, Attempt.andThen] at left
  | waits => simp [run, Attempt.andThen] at left

/-- When `fd1` ends, the loop is left with both directions as they were. -/
theorem Relay.Tracked.firstEnds (tracked : s.Tracked one two) (ends : FirstEnds r)
    (left : Lcx.round s r = .leaves s') : s'.Tracked one two := by
  obtain ⟨secondStays, -⟩ := tracked.second.flowStep ends.secondReads ends.secondWrites
  obtain ⟨first, second⟩ | ⟨-, second⟩ := (round_cases ends.select).2 s' left
  · refine ⟨?_, second ▸ tracked.second⟩
    rw [flowStep_atEnd ends.firstEnd ends.firstWrites first]
    exact tracked.first
  · exact absurd second (secondStays _)

/-- When `fd2` ends, the loop is left after a round of the other direction. -/
theorem Relay.Tracked.secondEnds (tracked : s.Tracked one two) (ends : SecondEnds r)
    (left : Lcx.round s r = .leaves s') : s'.Tracked (waits one r.first) two := by
  obtain ⟨firstStays, firstTracks⟩ := tracked.first.flowStep ends.firstReads ends.firstWrites
  obtain ⟨first, -⟩ | ⟨first, second⟩ := (round_cases ends.select).2 s' left
  · exact absurd first (firstStays _)
  · refine ⟨firstTracks _ first, ?_⟩
    rw [flowStep_atEnd ends.secondEnd ends.secondWrites second]
    exact tracked.second

/-- Relayed directions have written everything exactly when none waits. -/
theorem Relay.Tracked.drained_iff (tracked : s.Tracked one two) :
    s.Drained ↔ one = false ∧ two = false := by
  rw [Relay.Drained, tracked.first.given_eq_taken_iff, tracked.second.given_eq_taken_iff]

end Relay

/-- How the last round ends the run. -/
inductive Ends where
  /-- `fd1` reports the end of its file. -/
  | first
  /-- `fd2` reports the end of its file. -/
  | second
deriving DecidableEq

/-- The last round ends in this way. -/
def LastRound : Ends → Round → Prop
  | .first => FirstEnds
  | .second => SecondEnds

/-- No direction waits when the last round reaches the end of the file: in each direction the
sink was ready in the last round in which the source was, or later. The last round counts for
the direction from `fd1` when it is `fd2` that ends. -/
def NothingWaits (ends : Ends) (rounds : List Round) (r : Round) : Prop :=
  waiting (match ends with
    | .first => rounds.map Round.first
    | .second => rounds.map Round.first ++ [r.first]) = false ∧
  waiting (rounds.map Round.second) = false

/-- After rounds of positive counts and a last one in which a file ends, `transdata` has written
everything it read exactly when no direction waited. -/
theorem relay_drained_iff (ends : Ends) (rounds : List Round) (r : Round) (s : Relay)
    (plain : ∀ round ∈ rounds, PlainRound round) (last : LastRound ends r)
    (closes : transdata relayStart (rounds ++ [r]) = .leaves s) :
    s.Drained ↔ NothingWaits ends rounds r := by
  obtain ⟨middle, tracked, left⟩ := transdata_left relayStart_tracked plain closes
  cases ends with
  | first => exact (tracked.firstEnds last left).drained_iff
  | second =>
    rw [(tracked.secondEnds last left).drained_iff]
    simp [NothingWaits, waiting, List.foldl_append]

/-- Bytes that may arrive and be written at once. -/
def busy (ready : Bool) (writes : List WriteResult) : Leg := ⟨true, .data [1, 2, 3], ready, writes⟩

/-- The end of the file, with the peer ready. -/
def finished : Leg := ⟨true, .data [], true, []⟩

/-- A direction without bytes, with a read that would give some. -/
def quiet : Leg := ⟨false, .data [0], false, []⟩

/-- A round without bytes in one direction is plain when the other is. -/
theorem quiet_plain {leg : Leg} (reads : ReadsPositive leg) (writes : WritesPositive leg) :
    PlainRound ⟨.returned, leg, quiet⟩ :=
  ⟨rfl, reads, writes, ⟨0, [], rfl⟩, by simp [WritesPositive, quiet]⟩

/-- A last round in which `fd1` ends. -/
theorem finished_last : LastRound .first ⟨.returned, finished, quiet⟩ :=
  ⟨rfl, ⟨rfl, rfl⟩, by simp [WritesPositive, finished], ⟨0, [], rfl⟩,
    by simp [WritesPositive, quiet]⟩

/-- At the end of the file `transdata` leaves its loop, unless the buffer is full. -/
theorem round_finished {s : Relay} (room : s.first.totalread < maxsize) :
    round s ⟨.returned, finished, quiet⟩ = .leaves s := by
  simp [round, flowStep, readStep, finished, room, Attempt.andThen]

/-- A round in one direction only. -/
theorem round_quiet {s : Relay} {leg : Leg} {f : Flow} (step : flowStep s.first leg = .done f) :
    round s ⟨.returned, leg, quiet⟩ = .done ⟨f, s.second⟩ := by
  have second : flowStep s.second quiet = .done s.second := by
    simp [flowStep, readStep, writeStep, quiet, Attempt.andThen]
  simp [round, step, second, Attempt.andThen]

/-- Three bytes that are written as they arrive are all written when `fd1` ends. -/
theorem relay_drained_at_once :
    ∃ s, transdata relayStart ([⟨.returned, busy true [.count 2, .count 1], quiet⟩] ++
        [⟨.returned, finished, quiet⟩]) = .leaves s ∧ s.Drained := by
  let f : Flow := ⟨List.replicate maxsize 0, 0, [1, 2, 3], [1, 2, 3]⟩
  have step : flowStep flowStart (busy true [.count 2, .count 1]) = .done f := by
    simp [-List.reduceReplicate, f, flowStep, readStep, writeStep, writeLoop, shiftDown, busy,
      flowStart, maxsize, Attempt.andThen, readAt, writeAt]
  have closes : transdata relayStart ([⟨.returned, busy true [.count 2, .count 1], quiet⟩] ++
      [⟨.returned, finished, quiet⟩]) = .leaves ⟨f, flowStart⟩ := by
    have first : round relayStart ⟨.returned, busy true [.count 2, .count 1], quiet⟩ =
        .done ⟨f, flowStart⟩ := round_quiet step
    have last : round ⟨f, flowStart⟩ ⟨.returned, finished, quiet⟩ = .leaves ⟨f, flowStart⟩ :=
      round_finished (by decide)
    simp [-List.reduceReplicate, transdata, first, last, Attempt.andThen]
  have plain : ∀ round ∈ [(⟨.returned, busy true [.count 2, .count 1], quiet⟩ : Round)],
      PlainRound round := by
    intro round mem
    rw [List.mem_singleton.mp mem]
    exact quiet_plain ⟨1, [2, 3], rfl⟩ (by simp [WritesPositive, busy])
  refine ⟨_, closes, (relay_drained_iff .first _ _ _ plain finished_last closes).mpr ?_⟩
  exact ⟨rfl, rfl⟩

/-- Three bytes that wait for `fd2` are not written when `fd1` ends, although `fd2` is ready
then. -/
theorem relay_closes_with_pending :
    ∃ rounds r s, (∀ round ∈ rounds, PlainRound round) ∧ LastRound .first r ∧
      r.first.writable = true ∧ transdata relayStart (rounds ++ [r]) = .leaves s ∧
      s.first.taken = [1, 2, 3] ∧ s.first.given = [] ∧ ¬ s.Drained := by
  let f : Flow := ⟨writeAt (List.replicate maxsize 0) 0 [1, 2, 3], 3, [1, 2, 3], []⟩
  have step : flowStep flowStart (busy false []) = .done f := by
    simp [-List.reduceReplicate, f, flowStep, readStep, writeStep, busy, flowStart, maxsize,
      Attempt.andThen]
  have closes : transdata relayStart ([⟨.returned, busy false [], quiet⟩] ++
      [⟨.returned, finished, quiet⟩]) = .leaves ⟨f, flowStart⟩ := by
    have first : round relayStart ⟨.returned, busy false [], quiet⟩ = .done ⟨f, flowStart⟩ :=
      round_quiet step
    have last : round ⟨f, flowStart⟩ ⟨.returned, finished, quiet⟩ = .leaves ⟨f, flowStart⟩ :=
      round_finished (by decide)
    simp [-List.reduceReplicate, transdata, first, last, Attempt.andThen]
  refine ⟨_, _, _, ?_, finished_last, rfl, closes, rfl, rfl, ?_⟩
  · intro round mem
    rw [List.mem_singleton.mp mem]
    exact quiet_plain ⟨1, [2, 3], rfl⟩ (by simp [WritesPositive, busy])
  · rintro ⟨same, -⟩
    exact absurd same (by simp [f])

end CodeLearning.Lcx
