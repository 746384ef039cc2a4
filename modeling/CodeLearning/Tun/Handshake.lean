import CodeLearning.Tun.Checksum
import CodeLearning.Tun.Acknowledgement

/-!
# Handshakes between the TCP programs

`connect_one` of `connectmany.cc` opens a connection: it writes a segment with `syn`, reads one
packet and answers it with its `tcp_input`. `accepttcp.cc` answers a `syn` with a `syn` of its own,
`rejecttcp.cc` with `rst`. The packets of all these programs have 40 bytes, two headers without
options, whose checksums are put in one after the other; an assertion of `in_checksum` can end any
of the programs. The hosts need not have the same byte order.
-/

namespace CodeLearning.Tun

open InternetChecksum

/-- The ends of a connection, as a packet names them. -/
structure Flow where
  /-- `saddr`. -/
  saddr : List UInt8
  /-- `daddr`. -/
  daddr : List UInt8
  /-- `source`. -/
  source : List UInt8
  /-- `dest`. -/
  dest : List UInt8
deriving DecidableEq

/-- The packets the other way. -/
def Flow.reverse (f : Flow) : Flow := ⟨f.daddr, f.saddr, f.dest, f.source⟩

/-- Addresses have four bytes and ports two. -/
structure Flow.Sized (f : Flow) : Prop where
  /-- `saddr`. -/
  saddr : f.saddr.length = 4
  /-- `daddr`. -/
  daddr : f.daddr.length = 4
  /-- `source`. -/
  source : f.source.length = 2
  /-- `dest`. -/
  dest : f.dest.length = 2

/-- A packet of which these are the bytes before the checksum of the IP header, the addresses, and
the bytes before the checksum of the segment; `none` when an assertion of `in_checksum` fails. -/
def sealed (e : Endian) (front addresses segment : List UInt8) : Option (List UInt8) := do
  let check ← inChecksum e (front ++ [0, 0] ++ addresses)
  let sum ← inChecksum e (addresses ++ (segment ++ [0, 0] ++ [0, 0]) ++ pseudo)
  some (front ++ wordBytes e check ++ addresses ++ (segment ++ wordBytes e sum ++ [0, 0]))

/-- The bytes of a TCP header before its checksum. -/
def tcphdrFront (source dest : List UInt8) (a : Answer) (window : Nat) : List UInt8 :=
  source ++ dest ++ htonl a.seq ++ htonl a.ackSeq ++ [0x50, a.flags] ++ wordBytes .big window

/-- The packet that a `tcp_input` builds. -/
def output (e : Endian) (p : List UInt8) (a : Answer) (window : Nat) : Option (List UInt8) :=
  sealed e (slice p 0 2 ++ wordBytes .big 40 ++ slice p 4 6) (slice p 16 4 ++ slice p 12 4)
    (tcphdrFront (slice p (iphdrLen p + 2) 2) (slice p (iphdrLen p) 2) a window)

/-- The packet is written unless an assertion failed. -/
def written : Option (List UInt8) → Outcome
  | none => .aborted
  | some reply => .wrote reply

/-- The header is in the segment. -/
def WholeHeader (p : List UInt8) : Prop := 20 ≤ tcpSegLen p ∧ doff p * 4 ≤ tcpSegLen p

/-- Whether it is can be decided. -/
instance decidableWholeHeader (p : List UInt8) : Decidable (WholeHeader p) :=
  inferInstanceAs (Decidable (_ ∧ _))

/-- `tcp_input` of the programs that build a packet for every segment. -/
def answerWith (e : Endian) (p : List UInt8) (a : Answer) : Outcome :=
  if WholeHeader p then
    match output e p a 5000 with
    | none => .aborted
    | some reply => if a.response then .wrote reply else .silent
  else .silent

/-- The flags and numbers that `tcp_input` of `accepttcp.cc` sets. -/
def acceptAnswer (p : List UInt8) : Answer :=
  if syn p then { seq := 123456, ackSeq := seq p + 1, flags := 0x12, response := true }
  else if fin p then { seq := 123457, ackSeq := seq p + 1, flags := 0x11, response := true }
  else { seq := 0, ackSeq := seq p + 1, flags := 0, response := false }

/-- The flags and numbers that `tcp_input` of `connectmany.cc` sets. -/
def connectAnswer (passive : Bool) (p : List UInt8) : Answer :=
  if syn p then
    { seq := if passive then 123456 else 123457, ackSeq := seq p + 1,
      flags := if passive then 0x12 else 0x10, response := true }
  else if fin p then { seq := 123457, ackSeq := seq p + 1, flags := 0x11, response := true }
  else if 0 < payloadLen p then
    { seq := 123457, ackSeq := seq p + payloadLen p, flags := 0x10, response := true }
  else { seq := 0, ackSeq := 0, flags := 0, response := false }

/-- `tcp_input` of `rejecttcp.cc`, which builds a packet only for a segment with `syn`. -/
def rejectInput (e : Endian) (p : List UInt8) : Outcome :=
  if WholeHeader p then
    if syn p then
      written (output e p { seq := 0, ackSeq := seq p + 1, flags := 0x14, response := true } 0)
    else .silent
  else .silent

/-- A round of the loop of `main` in `accepttcp.cc`. -/
def accepttcpRound (e : Endian) : List UInt8 → Outcome :=
  received e (icmpInput e) fun p => answerWith e p (acceptAnswer p)

/-- A round of the loop of `main` in `rejecttcp.cc`. -/
def rejecttcpRound (e : Endian) : List UInt8 → Outcome :=
  received e (icmpInput e) (rejectInput e)

/-- What `connectmany.cc` does with a packet: `connect_one` is not passive, `main` is. -/
def connectRound (e : Endian) (passive : Bool) : List UInt8 → Outcome :=
  received e (icmpInput e) fun p => answerWith e p (connectAnswer passive p)

/-- The packet that `connect_one` builds. Its `id` is stored in the byte order of the host. -/
def connectSyn (e : Endian) (f : Flow) : Option (List UInt8) :=
  sealed e ([0x45, 0] ++ wordBytes .big 40 ++ wordBytes e 55564 ++ [0x40, 0, 64, 6])
    (f.saddr ++ f.daddr)
    (tcphdrFront f.source f.dest { seq := 123456, ackSeq := 0, flags := 2, response := true } 4096)

/-! ## Packets that carry their checksums -/

/-- A packet of 40 bytes with valid headers. -/
structure ValidSegment (r : List UInt8) : Prop where
  /-- It has no payload. -/
  length : r.length = 40
  /-- IPv4, with a header of 20 bytes. -/
  start : byte r 0 = 0x45
  /-- The total length. -/
  total : ntohs r 2 = 40
  /-- The protocol is TCP. -/
  tcp : byte r 9 = 6
  /-- The TCP header has 20 bytes. -/
  offset : byte r 32 = 0x50
  /-- The checksum of the IP header verifies. -/
  header : Verifies (r.take 20)
  /-- The checksum of the segment with the pseudo header verifies. -/
  segment : Verifies (pseudoHeader r ++ r.drop 20)

/-- The ends of the connection that a packet names. -/
def flow (r : List UInt8) : Flow := ⟨slice r 12 4, slice r 16 4, slice r 20 2, slice r 22 2⟩

/-- A valid packet with these ends, numbers and flags. -/
structure Carries (r : List UInt8) (f : Flow) (number acknowledged : Nat) (flags : UInt8) :
    Prop extends ValidSegment r where
  /-- The ends. -/
  ends : flow r = f
  /-- `seq`. -/
  number : ntohl r 24 = number
  /-- `ack_seq`. -/
  acknowledged : ackSeq r = acknowledged
  /-- The byte of the flags. -/
  flags : byte r 33 = flags

section Sealed

variable {e : Endian} {p r front addresses segment buf left right : List UInt8} {f : Flow}
  {a : Answer} {check window n offset : Nat}

/-- Bytes whose checksum is zero verify. -/
theorem verifies_of_zero (zero : inChecksum e buf = some 0) : Verifies buf := by
  obtain ⟨-, fits, equal⟩ := inChecksum_eq_some.mp zero
  rw [verifies_iff e]
  unfold foldOnce at fits equal
  omega

/-- Bytes verify when the zero field among them is filled with their checksum. -/
theorem verifies_filled (even : left.length % 2 = 0)
    (returned : inChecksum e (left ++ [0, 0] ++ right) = some check) :
    Verifies (left ++ wordBytes e check ++ right) := by
  obtain ⟨whole, fits, -⟩ := inChecksum_eq_some.mp returned
  refine verifies_of_zero (e := e) (inChecksum_filled even whole rfl ?_ returned)
  unfold CarriesAgain
  unfold foldOnce at fits
  omega

/-- A slice of a slice. -/
theorem slice_slice {m start : Nat} (inside : start + m ≤ n) :
    slice (slice p offset n) start m = slice p (offset + start) m := by
  rw [slice, slice, slice, List.drop_take, List.take_take, List.drop_drop,
    Nat.min_eq_left (by omega)]

/-- The parts of a packet. -/
theorem sealed_parts (ten : front.length = 10) (eight : addresses.length = 8)
    (sixteen : segment.length = 16) (built : sealed e front addresses segment = some r) :
    r.length = 40 ∧ slice r 0 10 = front ∧ slice r 12 8 = addresses ∧ slice r 20 16 = segment ∧
      Verifies (r.take 20) ∧ Verifies (addresses ++ pseudo ++ r.drop 20) := by
  obtain ⟨check, first, rest⟩ := Option.bind_eq_some_iff.mp built
  obtain ⟨sum, second, equal⟩ := Option.bind_eq_some_iff.mp rest
  rw [Option.some.injEq] at equal
  have two := length_wordBytes e check
  have twoS := length_wordBytes e sum
  have before : (front ++ wordBytes e check).length = 12 := by simp [ten, two]
  have header : (front ++ wordBytes e check ++ addresses).length = 20 := by
    simp [ten, two, eight]
  subst equal
  refine ⟨by simp [ten, two, eight, sixteen, twoS], ?_, ?_, ?_, ?_, ?_⟩
  · rw [List.append_assoc, List.append_assoc]
    exact slice_front ten
  · rw [List.append_assoc (front ++ wordBytes e check)]
    exact (slice_skip before 0 8).trans (slice_front eight)
  · rw [List.append_assoc segment]
    exact (slice_skip header 0 16).trans (slice_front sixteen)
  · rw [List.take_left' header]
    exact verifies_filled (by rw [ten]) first
  · have evenA : addresses.length % 2 = 0 := by rw [eight]
    have evenS : segment.length % 2 = 0 := by rw [sixteen]
    have filled : Verifies (addresses ++ segment ++ wordBytes e sum ++ ([0, 0] ++ pseudo)) := by
      refine verifies_filled (by simp [eight, sixteen]) ?_
      simpa only [List.append_assoc] using second
    -- the pseudo header is summed after the segment, and stands before it
    rw [verifies_iff e] at filled ⊢
    rw [List.drop_left' header]
    have sums : sumWords e (addresses ++ pseudo ++ (segment ++ wordBytes e sum ++ [0, 0])) =
        sumWords e (addresses ++ segment ++ wordBytes e sum ++ ([0, 0] ++ pseudo)) := by
      simp only [List.append_assoc]
      have evenP : pseudo.length % 2 = 0 := rfl
      have evenZ : [(0 : UInt8), 0].length % 2 = 0 := rfl
      rw [sumWords_append evenA, sumWords_append evenA, sumWords_append evenP,
        sumWords_append evenS, sumWords_append evenS,
        sumWords_append (by rw [twoS]), sumWords_append (by rw [twoS]),
        sumWords_append evenZ]
      omega
    rw [sums]
    exact filled

/-- The bytes of a TCP header before its checksum. -/
theorem length_tcphdrFront (sized : f.Sized) :
    (tcphdrFront f.source f.dest a window).length = 16 := by
  simp [tcphdrFront, htonl, length_wordBytes, sized.source, sized.dest]

/-- The parts of a TCP header. -/
theorem tcphdrFront_slices (a : Answer) (window : Nat) (sized : f.Sized) :
    slice (tcphdrFront f.source f.dest a window) 0 2 = f.source ∧
    slice (tcphdrFront f.source f.dest a window) 2 2 = f.dest ∧
    slice (tcphdrFront f.source f.dest a window) 4 4 = htonl a.seq ∧
    slice (tcphdrFront f.source f.dest a window) 8 4 = htonl a.ackSeq ∧
    slice (tcphdrFront f.source f.dest a window) 12 2 = [0x50, a.flags] := by
  have four : ∀ value, (htonl value).length = 4 := fun value => by simp [htonl, length_wordBytes]
  simp only [tcphdrFront, List.append_assoc]
  refine ⟨slice_front sized.source, (slice_skip sized.source 0 2).trans (slice_front sized.dest),
    ?_, ?_, ?_⟩
  · exact (slice_skip sized.source 2 4).trans
      ((slice_skip sized.dest 0 4).trans (slice_front (four _)))
  · exact (slice_skip sized.source 6 4).trans ((slice_skip sized.dest 4 4).trans
      ((slice_skip (four _) 0 4).trans (slice_front (four _))))
  · exact (slice_skip sized.source 10 2).trans ((slice_skip sized.dest 8 2).trans
      ((slice_skip (four _) 4 2).trans ((slice_skip (four _) 0 2).trans (slice_front rfl))))

/-- A packet carries what was put into it. -/
theorem sealed_carries (sized : f.Sized) (ten : front.length = 10) (start : byte front 0 = 0x45)
    (total : ntohs front 2 = 40) (tcp : byte front 9 = 6)
    (built : sealed e front (f.saddr ++ f.daddr) (tcphdrFront f.source f.dest a window) = some r) :
    Carries r f (a.seq % 2 ^ 32) (a.ackSeq % 2 ^ 32) a.flags := by
  have eight : (f.saddr ++ f.daddr).length = 8 := by simp [sized.saddr, sized.daddr]
  obtain ⟨length, isFront, isAddresses, isSegment, header, verified⟩ :=
    sealed_parts ten eight (length_tcphdrFront sized) built
  obtain ⟨source, dest, number, acknowledged, last⟩ :=
    tcphdrFront_slices a window sized
  rw [← isSegment, slice_slice (by decide)] at source dest number acknowledged last
  have inFront : ∀ i, i < 10 → byte r i = byte front i := fun i inside => by
    rw [← isFront, byte_slice inside, Nat.zero_add]
  have isTotal : ntohs r 2 = 40 := by
    rw [← total, ntohs, ntohs, inFront 2 (by decide), inFront (2 + 1) (by decide)]
  have isTcp : byte r 9 = 6 := by rw [inFront 9 (by decide), tcp]
  have offset : byte r (32 + 0) = 0x50 := byte_of_slice last (by decide)
  have flags : byte r (32 + 1) = a.flags := byte_of_slice last (by decide)
  have saddr : slice r 12 4 = f.saddr := by
    have part : slice (slice r 12 8) 0 4 = slice r (12 + 0) 4 := slice_slice (by decide)
    rw [← part, isAddresses]
    exact slice_front sized.saddr
  have daddr : slice r 16 4 = f.daddr := by
    have part : slice (slice r 12 8) 4 4 = slice r (12 + 4) 4 := slice_slice (by decide)
    rw [← part, isAddresses]
    have skipped : slice (f.saddr ++ f.daddr) 4 4 = slice f.daddr 0 4 :=
      slice_skip sized.saddr 0 4
    rw [skipped]
    exact List.take_of_length_le (Nat.le_of_eq sized.daddr)
  refine ⟨⟨length, (inFront 0 (by decide)).trans start, isTotal, isTcp, offset, header, ?_⟩,
    ?_, ntohl_htonl number, ntohl_htonl acknowledged, flags⟩
  · rw [pseudoHeader, isAddresses, isTcp, length, List.append_assoc (f.saddr ++ f.daddr) [0, 6]]
    exact verified
  · rw [flow, saddr, daddr, source, dest]

end Sealed

/-! ## What a program does with such a packet -/

section Received

variable {e : Endian} {p r reply : List UInt8} {f : Flow} {a : Answer}
  {number acknowledged window : Nat} {flags : UInt8} {icmp tcp : List UInt8 → Outcome}

/-- The header of a valid packet has 20 bytes. -/
theorem ValidSegment.iphdrLen (valid : ValidSegment r) : iphdrLen r = 20 := by
  rw [Tun.iphdrLen, ihl, valid.start]
  rfl

/-- A header of ten words that verifies has a checksum of zero, on either host. -/
theorem inChecksum_of_verifies (length : p.length = 20) (verifies : Verifies p) :
    inChecksum e p = some 0 := by
  have bound := sumWords_le e p
  obtain ⟨positive, multiple⟩ := (verifies_iff e p).mp verifies
  rw [length] at bound
  have folded : foldOnce (sumWords e p) = 0xFFFF := by
    unfold foldOnce
    omega
  rw [inChecksum_eq_some, length, folded]
  exact ⟨rfl, Nat.le_refl _, rfl⟩

/-- The programs go on with a valid packet. -/
theorem ValidSegment.accepted (valid : ValidSegment r) : accepts e r = some true := by
  have version : version r = 4 := by
    rw [version, valid.start]
    rfl
  have twenty : (r.take 20).length = 20 := by rw [List.length_take, valid.length]; rfl
  rw [accepts, valid.iphdrLen, inChecksum_of_verifies twenty valid.header, if_pos]
  · rfl
  · rw [valid.length, valid.total]
    exact ⟨by decide, version, by decide, by decide, rfl⟩

/-- A valid packet is for `tcp_input`. -/
theorem ValidSegment.received_eq (valid : ValidSegment r) : received e icmp tcp r = tcp r := by
  have isTcp : protocol r = 6 := by
    rw [protocol, valid.tcp]
    rfl
  exact received_tcp valid.accepted isTcp

/-- A valid packet has its TCP header and no payload. -/
theorem ValidSegment.whole (valid : ValidSegment r) : WholeHeader r ∧ payloadLen r = 0 := by
  have five : doff r = 5 := by
    rw [doff, valid.iphdrLen, valid.offset]
    rfl
  rw [WholeHeader, payloadLen, tcpSegLen, valid.iphdrLen, valid.length, five]
  decide

/-- The ends that a valid packet names have their sizes. -/
theorem ValidSegment.sized (valid : ValidSegment r) : (flow r).Sized := by
  have length := valid.length
  exact ⟨length_slice (by omega), length_slice (by omega), length_slice (by omega),
    length_slice (by omega)⟩

/-- The fields that `tcp_input` reads of a packet. -/
theorem Carries.fields (carries : Carries r f number acknowledged flags) :
    seq r = number ∧ syn r = (flags.toNat / 2 % 2 == 1) ∧ fin r = (flags.toNat % 2 == 1) := by
  have length := carries.toValidSegment.iphdrLen
  refine ⟨?_, ?_, ?_⟩
  · rw [seq, length, ← carries.number]
  · rw [syn, length, carries.flags]
  · rw [fin, length, carries.flags]

/-- The packet that is built from a valid one goes back to where that came from. -/
theorem output_carries (valid : ValidSegment r) (built : output e r a window = some reply) :
    Carries reply (flow r).reverse (a.seq % 2 ^ 32) (a.ackSeq % 2 ^ 32) a.flags := by
  have length := valid.length
  have sized := valid.sized
  have first : (slice r 0 2).length = 2 := length_slice (by omega)
  have third : (slice r 4 6).length = 6 := length_slice (by omega)
  have total := length_wordBytes .big 40
  rw [output, valid.iphdrLen] at built
  refine sealed_carries (f := (flow r).reverse) ⟨sized.daddr, sized.saddr, sized.dest, sized.source⟩
    ?_ ?_ ?_ ?_ built
  · simp [first, third, total]
  · have start : slice (slice r 0 2 ++ wordBytes .big 40 ++ slice r 4 6) 0 2 = slice r 0 2 := by
      rw [List.append_assoc]
      exact slice_front first
    have byte0 : byte (slice r 0 2 ++ wordBytes .big 40 ++ slice r 4 6) (0 + 0) =
        byte (slice r 0 2) 0 := byte_of_slice start (by decide)
    rw [← Nat.zero_add 0, byte0, byte_slice (by decide)]
    exact valid.start
  · have middle : slice (slice r 0 2 ++ wordBytes .big 40 ++ slice r 4 6) 2 2 =
        wordBytes .big 40 := by
      rw [List.append_assoc]
      exact (slice_skip first 0 2).trans (slice_front total)
    have high : byte (slice r 0 2 ++ wordBytes .big 40 ++ slice r 4 6) (2 + 0) = 0 :=
      byte_of_slice middle (by decide)
    have low : byte (slice r 0 2 ++ wordBytes .big 40 ++ slice r 4 6) (2 + 1) = 40 :=
      byte_of_slice middle (by decide)
    rw [ntohs, low, ← Nat.add_zero 2, high]
    rfl
  · have last : slice (slice r 0 2 ++ wordBytes .big 40 ++ slice r 4 6) 4 6 = slice r 4 6 := by
      rw [List.append_assoc]
      exact (slice_skip first 2 6).trans ((slice_skip total 0 6).trans
        (List.take_of_length_le (Nat.le_of_eq third)))
    have byte9 : byte (slice r 0 2 ++ wordBytes .big 40 ++ slice r 4 6) (4 + 5) =
        byte (slice r 4 6) 5 := byte_of_slice last (by decide)
    exact byte9.trans ((byte_slice (by decide)).trans valid.tcp)

/-- A `tcp_input` that responds to a valid packet aborts or writes what it built. -/
theorem answerWith_wrote (valid : ValidSegment r) (due : a.response = true) :
    answerWith e r a ≠ .silent ∧ ∀ reply, answerWith e r a = .wrote reply →
      Carries reply (flow r).reverse (a.seq % 2 ^ 32) (a.ackSeq % 2 ^ 32) a.flags := by
  rw [answerWith, if_pos valid.whole.1]
  cases built : output e r a 5000 with
  | none => exact ⟨by simp, by simp⟩
  | some reply =>
    simp only [due, if_true]
    refine ⟨by simp, fun again same => ?_⟩
    cases same
    exact output_carries valid built

/-- A `tcp_input` that does not respond writes nothing. -/
theorem answerWith_quiet (quiet : a.response = false) : answerWith e r a ≠ .wrote reply := by
  rw [answerWith]
  split
  · split
    · simp
    · simp [quiet]
  · simp

/-- The segment that `discardtcp.cc` puts together is the packet of the other programs. -/
theorem answerWith_answer {p : List UInt8} (long : 20 ≤ p.length) :
    answerWith e p (answer p) = tcpInput e p := by
  rw [answerWith, tcpInput, output, sealed]
  refine if_congr Iff.rfl ?_ rfl
  cases first : inChecksum e (outIphdr p [0, 0]) with
  | none =>
    rw [outIphdr] at first
    rw [first]
    rfl
  | some check =>
    have addresses := drop_outIphdr long (length_wordBytes e check)
    have front := first
    rw [outIphdr] at front
    rw [front]
    simp only [Option.bind_eq_bind, Option.bind_some, addresses]
    cases second : inChecksum e (slice p 16 4 ++ slice p 12 4 ++
        outTcphdr p (answer p) [0, 0] ++ pseudo) with
    | none =>
      rw [outTcphdr] at second
      rw [tcphdrFront, second]
      rfl
    | some sum =>
      rw [outTcphdr] at second
      rw [tcphdrFront, second]
      rfl

/-- Passive, `connectmany.cc` does with a packet what `discardtcp.cc` does. -/
theorem connectRound_passive (p : List UInt8) : connectRound e true p = discardtcpRound e p := by
  have same : connectAnswer true p = answer p := rfl
  rw [connectRound, discardtcpRound, received, received]
  cases accepted : accepts e p with
  | none => rfl
  | some fine =>
    cases fine with
    | false => rfl
    | true =>
      have header := accepted_of_accepts accepted
      simp only [if_true, same, answerWith_answer (Nat.le_trans header.low header.high)]

end Received

/-! ## The handshakes -/

section Handshakes

variable {e : Endian} {f : Flow} {r synPacket : List UInt8}

/-- The first packet of a connection. -/
theorem connectSyn_carries (sized : f.Sized) (built : connectSyn e f = some r) :
    Carries r f 123456 0 2 := by
  have two := length_wordBytes e 55564
  refine sealed_carries (a := { seq := 123456, ackSeq := 0, flags := 2, response := true }) sized
    ?_ rfl rfl ?_ built
  · simp [two, length_wordBytes]
  · cases e <;> rfl

/-- `accepttcp.cc` on one host and `connect_one` on another go through the three packets of a
handshake, unless an assertion fails: each packet is valid and goes the right way, acknowledges the
number that the one before it took up, and the third ends the exchange. -/
theorem handshake_completes (server client : Endian) (f : Flow) (sized : f.Sized)
    (first : List UInt8) (opened : connectSyn client f = some first) :
    Carries first f 123456 0 0x02 ∧ accepttcpRound server first ≠ .silent ∧
    ∀ second, accepttcpRound server first = .wrote second →
      Carries second f.reverse 123456 (123456 + 1) 0x12 ∧
      connectRound client false second ≠ .silent ∧
      ∀ third, connectRound client false second = .wrote third →
        Carries third f (123456 + 1) (123456 + 1) 0x10 ∧
        ∀ fourth, accepttcpRound server third ≠ .wrote fourth := by
  have carries := connectSyn_carries sized opened
  have fields := carries.fields
  have isSyn : syn first = true := fields.2.1
  have answered : acceptAnswer first =
      { seq := 123456, ackSeq := 123456 + 1, flags := 0x12, response := true } := by
    rw [acceptAnswer, isSyn, if_pos rfl, fields.1]
  have round : accepttcpRound server first = answerWith server first (acceptAnswer first) :=
    carries.received_eq
  obtain ⟨speaks, replies⟩ := answerWith_wrote (e := server) (a := acceptAnswer first)
    carries.toValidSegment (by rw [answered])
  refine ⟨carries, by rwa [round], fun second wrote => ?_⟩
  have carries₂ : Carries second f.reverse 123456 (123456 + 1) 0x12 := by
    have said := replies second (by rwa [← round])
    rw [answered, carries.ends] at said
    exact said
  have fields₂ := carries₂.fields
  have isSyn₂ : syn second = true := fields₂.2.1
  have answered₂ : connectAnswer false second =
      { seq := 123457, ackSeq := 123456 + 1, flags := 0x10, response := true } := by
    rw [connectAnswer, isSyn₂, if_pos rfl, fields₂.1]
    rfl
  have round₂ : connectRound client false second =
      answerWith client second (connectAnswer false second) := carries₂.received_eq
  obtain ⟨speaks₂, replies₂⟩ := answerWith_wrote (e := client) (a := connectAnswer false second)
    carries₂.toValidSegment (by rw [answered₂])
  refine ⟨carries₂, by rwa [round₂], fun third wrote₂ => ?_⟩
  have carries₃ : Carries third f (123456 + 1) (123456 + 1) 0x10 := by
    have said := replies₂ third (by rwa [← round₂])
    rw [answered₂, carries₂.ends] at said
    exact said
  refine ⟨carries₃, fun fourth again => ?_⟩
  obtain ⟨-, noSyn, noFin⟩ := carries₃.fields
  have quiet : (acceptAnswer third).response = false := by
    rw [acceptAnswer, noSyn, noFin]
    rfl
  exact answerWith_quiet quiet (carries₃.received_eq.symm.trans again)

/-- `rejecttcp.cc` answers the first packet of a connection with a valid `rst` that acknowledges it,
unless an assertion fails, and `connect_one` writes nothing after that. -/
theorem connection_refused (server client : Endian) (f : Flow) (sized : f.Sized)
    (first : List UInt8) (opened : connectSyn client f = some first) :
    rejecttcpRound server first ≠ .silent ∧
    ∀ second, rejecttcpRound server first = .wrote second →
      Carries second f.reverse 0 (123456 + 1) 0x14 ∧
      ∀ third, connectRound client false second ≠ .wrote third := by
  have carries := connectSyn_carries sized opened
  have isSyn : syn first = true := carries.fields.2.1
  have round : rejecttcpRound server first = written (output server first
      { seq := 0, ackSeq := seq first + 1, flags := 0x14, response := true } 0) := by
    rw [rejecttcpRound, carries.received_eq, rejectInput, if_pos carries.whole.1, if_pos isSyn]
  rw [round]
  cases built : output server first
      { seq := 0, ackSeq := seq first + 1, flags := 0x14, response := true } 0 with
  | none => exact ⟨by simp [written], by simp [written]⟩
  | some second =>
    refine ⟨by simp [written], fun again wrote => ?_⟩
    cases wrote
    have carries₂ : Carries second f.reverse 0 (123456 + 1) 0x14 := by
      have said := output_carries carries.toValidSegment built
      rw [carries.ends, carries.fields.1] at said
      exact said
    refine ⟨carries₂, fun third wrote => ?_⟩
    obtain ⟨-, noSyn, noFin⟩ := carries₂.fields
    have quiet : (connectAnswer false second).response = false := by
      rw [connectAnswer, noSyn, noFin, carries₂.whole.2]
      rfl
    exact answerWith_quiet quiet (carries₂.received_eq.symm.trans wrote)

/-- From host 10.0.0.2, port 1024, to port 80 of host 10.0.0.1. -/
def toPort80 : Flow := ⟨[10, 0, 0, 2], [10, 0, 0, 1], [4, 0], [0, 80]⟩

/-- The packet that opens it. -/
def openingPacket : List UInt8 :=
  [69, 0, 0, 40, 12, 217, 64, 0, 64, 6, 25, 245, 10, 0, 0, 2, 10, 0, 0, 1,
    4, 0, 0, 80, 0, 1, 226, 64, 0, 0, 0, 0, 80, 2, 16, 0, 165, 78, 0, 0]

/-- The packet that accepts it. -/
def acceptingPacket : List UInt8 :=
  [69, 0, 0, 40, 12, 217, 64, 0, 64, 6, 25, 245, 10, 0, 0, 1, 10, 0, 0, 2,
    0, 80, 4, 0, 0, 1, 226, 64, 0, 1, 226, 65, 80, 18, 19, 136, 191, 115, 0, 0]

/-- The packet that confirms it. -/
def confirmingPacket : List UInt8 :=
  [69, 0, 0, 40, 12, 217, 64, 0, 64, 6, 25, 245, 10, 0, 0, 2, 10, 0, 0, 1,
    4, 0, 0, 80, 0, 1, 226, 65, 0, 1, 226, 65, 80, 16, 19, 136, 191, 116, 0, 0]

/-- The packet that refuses it. -/
def refusingPacket : List UInt8 :=
  [69, 0, 0, 40, 12, 217, 64, 0, 64, 6, 25, 245, 10, 0, 0, 1, 10, 0, 0, 2,
    0, 80, 4, 0, 0, 0, 0, 0, 0, 1, 226, 65, 80, 20, 0, 0, 181, 59, 0, 0]

/-- A handshake of two hosts of different byte orders. -/
theorem handshake_completes_port80 : connectSyn .little toPort80 = some openingPacket ∧
    accepttcpRound .big openingPacket = .wrote acceptingPacket ∧
    connectRound .little false acceptingPacket = .wrote confirmingPacket ∧
    Carries confirmingPacket toPort80 (123456 + 1) (123456 + 1) 0x10 := by
  have opened : connectSyn .little toPort80 = some openingPacket := by decide +kernel
  have accepted : accepttcpRound .big openingPacket = .wrote acceptingPacket := by decide +kernel
  have confirmed : connectRound .little false acceptingPacket = .wrote confirmingPacket := by
    decide +kernel
  have completes :=
    handshake_completes .big .little toPort80 ⟨rfl, rfl, rfl, rfl⟩ openingPacket opened
  obtain ⟨-, -, replies⟩ := completes.2.2 acceptingPacket accepted
  exact ⟨opened, accepted, confirmed, (replies confirmingPacket confirmed).1⟩

/-- The same connection is refused. -/
theorem connection_refused_port80 : rejecttcpRound .big openingPacket = .wrote refusingPacket ∧
    Carries refusingPacket toPort80.reverse 0 (123456 + 1) 0x14 := by
  have refused : rejecttcpRound .big openingPacket = .wrote refusingPacket := by decide +kernel
  have opened : connectSyn .little toPort80 = some openingPacket := by decide +kernel
  have refusal := connection_refused .big .little toPort80 ⟨rfl, rfl, rfl, rfl⟩ openingPacket opened
  exact ⟨refused, (refusal.2 refusingPacket refused).1⟩

end Handshakes

/-! ## Many connections -/

/-- What `connect_one` wrote. -/
structure Session where
  /-- The packet with `syn`. -/
  first : List UInt8
  /-- The answer to the packet that was read. -/
  answer : Option (List UInt8)

/-- How a run of `connect_many` ends. -/
inductive Ending where
  /-- An assertion fails. -/
  | aborted
  /-- `read` fails. -/
  | exited
  /-- All connections were made. -/
  | finished
deriving DecidableEq

/-- `connect_one`, with what its call of `read` returns. -/
def connectOne (e : Endian) (f : Flow) (nread : Option Packet) : Option Session × Ending :=
  match connectSyn e f with
  | none => (none, .aborted)
  | some first =>
    match nread with
    | none => (some ⟨first, none⟩, .exited)
    | some p =>
      match connectRound e false p.val with
      | .aborted => (some ⟨first, none⟩, .aborted)
      | .silent => (some ⟨first, none⟩, .finished)
      | .wrote reply => (some ⟨first, some reply⟩, .finished)

/-- The loop of `connect_many`, over what the calls of `read` return, one for each connection. -/
def connectLoop (e : Endian) (destip port : Nat) :
    Nat → Nat → List (Option Packet) → List Session × Ending
  | _, _, [] => ([], .finished)
  | srcip, srcport, nread :: reads =>
    let f := ⟨htonl srcip, htonl destip, wordBytes .big srcport, wordBytes .big port⟩
    let (session, ending) := connectOne e f nread
    if ending = .finished then
      let (sessions, ending) :=
        if 0xFFFF < srcport + 1 then connectLoop e destip port ((srcip + 1) % 2 ^ 32) 1024 reads
        else connectLoop e destip port srcip (srcport + 1) reads
      (session.toList ++ sessions, ending)
    else (session.toList, ending)

/-- `connect_many`; `destip` is in the byte order of the host. -/
def connectMany (e : Endian) (destip port : Nat) (reads : List (Option Packet)) :
    List Session × Ending :=
  connectLoop e destip port ((destip + 1) % 2 ^ 32) 1024 reads

/-- The ends of a connection of `connect_many`. -/
def connection (destip port i : Nat) : Flow :=
  ⟨htonl ((destip + 1 + i / 64512) % 2 ^ 32), htonl destip,
    wordBytes .big (1024 + i % 64512), wordBytes .big port⟩

section Many

variable {e : Endian} {destip port i j a b : Nat} {reads : List (Option Packet)}

/-- The ends have their sizes. -/
theorem connection_sized (destip port i : Nat) : (connection destip port i).Sized := by
  constructor <;> simp [connection, htonl, length_wordBytes]

/-- Different addresses have different bytes. -/
theorem htonl_inj (same : htonl a = htonl b) : a % 2 ^ 32 = b % 2 ^ 32 := by
  have field : ∀ n, slice (htonl n) 0 4 = htonl n := fun n =>
    List.take_of_length_le (Nat.le_of_eq (by simp [htonl, length_wordBytes]))
  rw [← ntohl_htonl (field a), ← ntohl_htonl (field b), same]

/-- Different ports have different bytes. -/
theorem wordBytes_inj (smallA : a ≤ 0xFFFF) (smallB : b ≤ 0xFFFF)
    (same : wordBytes .big a = wordBytes .big b) : a = b := by
  rw [← word_wordBytes .big smallA, ← word_wordBytes .big smallB, same]

/-- As many connections as an `int` can count come from different addresses or ports. -/
theorem connection_inj (smallI : i < 2 ^ 31) (smallJ : j < 2 ^ 31)
    (same : connection destip port i = connection destip port j) : i = j := by
  simp only [connection, Flow.mk.injEq, and_true, true_and] at same
  have address := htonl_inj same.1
  have source := wordBytes_inj (by omega) (by omega) same.2
  omega

/-- None of them comes from the address it goes to. -/
theorem connection_elsewhere (small : i < 2 ^ 31) :
    (connection destip port i).saddr ≠ (connection destip port i).daddr := by
  intro same
  have equal := htonl_inj same
  omega

/-- What `connect_one` wrote first. -/
theorem connectOne_first {f : Flow} (nread : Option Packet) (session : Session)
    (sized : f.Sized) (wrote : session ∈ (connectOne e f nread).1) :
    Carries session.first f 123456 0 2 := by
  unfold connectOne at wrote
  split at wrote
  · cases wrote
  · rename_i first built
    have carries := connectSyn_carries sized built
    split at wrote
    · cases wrote
      exact carries
    · split at wrote <;> cases wrote <;> exact carries

/-- `connect_one` that returns has written its first packet. -/
theorem connectOne_finished {f : Flow} {nread : Option Packet}
    (finished : (connectOne e f nread).2 = .finished) :
    ∃ session, (connectOne e f nread).1 = some session := by
  unfold connectOne at finished ⊢
  split at finished
  · cases finished
  · split at finished
    · cases finished
    · split at finished
      · cases finished
      · exact ⟨_, rfl⟩
      · exact ⟨_, rfl⟩

/-- The loop goes through the connections one after the other. -/
theorem connectLoop_sessions (k : Nat) : ∀ numbered ∈ (connectLoop e destip port
    ((destip + 1 + k / 64512) % 2 ^ 32) (1024 + k % 64512) reads).1.zipIdx k,
      Carries numbered.1.first (connection destip port numbered.2) 123456 0 2 := by
  induction reads generalizing k with
  | nil => simp [connectLoop]
  | cons nread reads rest =>
    have next : (if 0xFFFF < 1024 + k % 64512 + 1 then
        connectLoop e destip port (((destip + 1 + k / 64512) % 2 ^ 32 + 1) % 2 ^ 32) 1024 reads
        else connectLoop e destip port ((destip + 1 + k / 64512) % 2 ^ 32)
          (1024 + k % 64512 + 1) reads) =
      connectLoop e destip port ((destip + 1 + (k + 1) / 64512) % 2 ^ 32)
        (1024 + (k + 1) % 64512) reads := by
      split
      · congr 1 <;> omega
      · congr 1 <;> omega
    intro numbered mem
    rw [connectLoop, next, ← connection] at mem
    have head := fun session => connectOne_first (e := e) nread session
      (connection_sized destip port k)
    by_cases finished : (connectOne e (connection destip port k) nread).2 = .finished
    · obtain ⟨session, wrote⟩ := connectOne_finished finished
      simp only [finished, if_true, wrote, Option.toList_some, List.singleton_append,
        List.zipIdx_cons, List.mem_cons] at mem
      rcases mem with rfl | later
      · exact head session wrote
      · exact rest (k + 1) numbered later
    · simp only [finished, if_false] at mem
      cases wrote : (connectOne e (connection destip port k) nread).1 with
      | none => simp [wrote] at mem
      | some session =>
        rw [wrote, Option.toList_some, List.zipIdx_cons, List.zipIdx_nil,
          List.mem_singleton] at mem
        rw [mem]
        exact head session wrote

/-- There is one call of `read` for each connection at least. -/
theorem length_connectLoop (srcip srcport : Nat) :
    (connectLoop e destip port srcip srcport reads).1.length ≤ reads.length := by
  induction reads generalizing srcip srcport with
  | nil => simp [connectLoop]
  | cons nread reads rest =>
    have one : ∀ session : Option Session, session.toList.length ≤ 1 := fun session => by
      cases session <;> simp
    rw [connectLoop, List.length_cons]
    generalize connectOne e _ nread = turn
    have first := one turn.1
    by_cases finished : turn.2 = .finished
    · simp only [finished, if_true, List.length_append]
      split
      · have more := rest ((srcip + 1) % 2 ^ 32) 1024
        omega
      · have more := rest srcip (srcport + 1)
        omega
    · simp only [finished, if_false]
      omega

/-- Every run of `connect_many`, whatever it reads: the connection with number `i` is opened by a
valid packet from address `destip + 1 + i / 64512` and port `1024 + i % 64512`; no two connections
have the same ends, and none comes from the address it goes to. -/
theorem connections_distinct (e : Endian) (destip port : Nat) (reads : List (Option Packet))
    (count : reads.length < 2 ^ 31) :
    (∀ i session, (connectMany e destip port reads).1[i]? = some session →
      Carries session.first (connection destip port i) 123456 0 2 ∧
        (flow session.first).saddr ≠ (flow session.first).daddr) ∧
    ((connectMany e destip port reads).1.map fun session => flow session.first).Nodup := by
  have bound : ∀ i session, (connectMany e destip port reads).1[i]? = some session →
      i < 2 ^ 31 := by
    intro i session here
    have inside := (List.getElem?_eq_some_iff.mp here).1
    have length : (connectMany e destip port reads).1.length ≤ reads.length :=
      length_connectLoop _ _
    omega
  have opened : ∀ i session, (connectMany e destip port reads).1[i]? = some session →
      Carries session.first (connection destip port i) 123456 0 2 := fun i session here =>
    connectLoop_sessions 0 (session, i) (List.mk_mem_zipIdx_iff_getElem?.mpr here)
  refine ⟨fun i session here => ⟨opened i session here, ?_⟩, ?_⟩
  · rw [(opened i session here).ends]
    exact connection_elsewhere (bound i session here)
  · rw [List.Nodup, List.pairwise_map, List.pairwise_iff_getElem]
    intro i j insideI insideJ before same
    have hereI := List.getElem?_eq_getElem insideI
    have hereJ := List.getElem?_eq_getElem insideJ
    rw [(opened i _ hereI).ends, (opened j _ hereJ).ends] at same
    have equal := connection_inj (bound i _ hereI) (bound j _ hereJ) same
    omega

/-- Two connections, of which the first is accepted. -/
theorem connections_distinct_two :
    ((connectMany .little 0x0A000001 80 [some ⟨acceptingPacket, by decide⟩, none]).1.map
        Session.answer) = [some confirmingPacket, none] ∧
      ((connectMany .little 0x0A000001 80 [some ⟨acceptingPacket, by decide⟩, none]).1.map
        fun session => flow session.first).Nodup := by
  have distinct := connections_distinct .little 0x0A000001 80
    [some ⟨acceptingPacket, by decide⟩, none] (by decide)
  exact ⟨by decide +kernel, distinct.2⟩

end Many

end CodeLearning.Tun
