import CodeLearning.Tun.IcmpEcho

/-!
# Replies of the discarding TCP server

`tcp_input` answers a segment with a packet of 40 bytes: the first 20 bytes of the header of the
input, with the addresses exchanged, and a TCP header. The part of the pseudo header that is not in
the packet is put after the segment, so that one call of `in_checksum` sums it too. Options of the
input are not copied, but its header length is.
-/

namespace CodeLearning.Tun

open InternetChecksum

/-- A field of four bytes in network order. -/
def ntohl (p : List UInt8) (i : Nat) : Nat := 0x10000 * ntohs p i + ntohs p (i + 2)

/-- The bytes of a field of four bytes. -/
def htonl (value : Nat) : List UInt8 :=
  wordBytes .big (value / 0x10000) ++ wordBytes .big value

/-- `tcphdr->doff`. -/
def doff (p : List UInt8) : Nat := (byte p (iphdrLen p + 12)).toNat / 16

/-- `tcphdr->syn`. -/
def syn (p : List UInt8) : Bool := (byte p (iphdrLen p + 13)).toNat / 2 % 2 == 1

/-- `tcphdr->fin`. -/
def fin (p : List UInt8) : Bool := (byte p (iphdrLen p + 13)).toNat % 2 == 1

/-- `tcphdr->seq`. -/
def seq (p : List UInt8) : Nat := ntohl p (iphdrLen p + 4)

/-- `tcp_seg_len`. -/
def tcpSegLen (p : List UInt8) : Nat := p.length - iphdrLen p

/-- `payload_len`. -/
def payloadLen (p : List UInt8) : Nat := p.length - iphdrLen p - doff p * 4

/-- What a reply says: its sequence number, acknowledgement number and flags. -/
structure Answer where
  /-- `seq`. -/
  seq : Nat
  /-- `ack_seq`. -/
  ackSeq : Nat
  /-- The byte of the flags. -/
  flags : UInt8
  /-- Whether it is written. -/
  response : Bool

/-- The flags and numbers that `tcp_input` sets. -/
def answer (p : List UInt8) : Answer :=
  if syn p then { seq := 123456, ackSeq := seq p + 1, flags := 0x12, response := true }
  else if fin p then { seq := 123457, ackSeq := seq p + 1, flags := 0x11, response := true }
  else if 0 < payloadLen p then
    { seq := 123457, ackSeq := seq p + payloadLen p, flags := 0x10, response := true }
  else { seq := 0, ackSeq := 0, flags := 0, response := false }

/-- `out.iphdr`: the header of the input with the length of the reply, the addresses exchanged and
these bytes as its checksum. -/
def outIphdr (p check : List UInt8) : List UInt8 :=
  slice p 0 2 ++ wordBytes .big 40 ++ slice p 4 6 ++ check ++ (slice p 16 4 ++ slice p 12 4)

/-- `out.tcphdr` with these bytes as its checksum. -/
def outTcphdr (p : List UInt8) (a : Answer) (check : List UInt8) : List UInt8 :=
  slice p (iphdrLen p + 2) 2 ++ slice p (iphdrLen p) 2 ++ htonl a.seq ++ htonl a.ackSeq ++
    [0x50, a.flags] ++ wordBytes .big 5000 ++ check ++ [0, 0]

/-- The bytes of the pseudo header that are put after the segment. -/
def pseudo : List UInt8 := [0, 6, 0, 20]

/-- `tcp_input`. -/
def tcpInput (e : Endian) (p : List UInt8) : Outcome :=
  if 20 ≤ tcpSegLen p ∧ doff p * 4 ≤ tcpSegLen p then
    match inChecksum e (outIphdr p [0, 0]) with
    | none => .aborted
    | some check =>
      let iphdr := outIphdr p (wordBytes e check)
      match inChecksum e (iphdr.drop 12 ++ outTcphdr p (answer p) [0, 0] ++ pseudo) with
      | none => .aborted
      | some check =>
        if (answer p).response then .wrote (iphdr ++ outTcphdr p (answer p) (wordBytes e check))
        else .silent
  else .silent

/-- A round of the loop of `main` in `discardtcp.cc`. -/
def discardtcpRound (e : Endian) : List UInt8 → Outcome := received e (icmpInput e) (tcpInput e)

/-- The segment has its header and asks for a reply. -/
def AsksReply (p : List UInt8) : Prop :=
  (20 ≤ tcpSegLen p ∧ doff p * 4 ≤ tcpSegLen p) ∧ (answer p).response = true

/-- The sum of the words of the header of the input with the length of the reply and no
checksum. -/
def headerSum (e : Endian) (p : List UInt8) : Nat :=
  sumWords e (slice p 0 2) + sumWords e (wordBytes .big 40) + sumWords e (slice p 4 6) +
    (sumWords e (slice p 12 4) + sumWords e (slice p 16 4))

/-- The sum of the words of the addresses and ports of the input and of what the reply says. -/
def segmentSum (e : Endian) (p : List UInt8) : Nat :=
  sumWords e (slice p 12 4) + sumWords e (slice p 16 4) +
    (sumWords e (slice p (iphdrLen p) 2) + sumWords e (slice p (iphdrLen p + 2) 2)) +
    sumWords e (htonl (answer p).seq ++ htonl (answer p).ackSeq ++ [0x50, (answer p).flags] ++
      wordBytes .big 5000 ++ pseudo)

/-- The real pseudo header of a packet with a header of 20 bytes. -/
def pseudoHeader (p : List UInt8) : List UInt8 :=
  slice p 12 8 ++ [0, byte p 9] ++ wordBytes .big (p.length - 20)

/-- A valid reply to a packet. -/
structure ValidReply (p reply : List UInt8) : Prop where
  /-- The version is 4. -/
  version : version reply = 4
  /-- The header length is that of the header, which has 20 bytes. -/
  headerLength : iphdrLen reply = 20
  /-- The total length is the number of bytes written. -/
  totalLength : ntohs reply 2 = reply.length
  /-- The checksum of the IP header verifies. -/
  header : Verifies (reply.take 20)
  /-- The protocol is TCP. -/
  tcp : protocol reply = 6
  /-- The checksum of the segment with the real pseudo header verifies. -/
  segment : Verifies (pseudoHeader reply ++ reply.drop 20)
  /-- The addresses are exchanged. -/
  addresses : slice reply 12 4 = slice p 16 4 ∧ slice reply 16 4 = slice p 12 4
  /-- The ports are exchanged. -/
  ports : slice reply 20 2 = slice p (iphdrLen p + 2) 2 ∧
    slice reply 22 2 = slice p (iphdrLen p) 2

section Sums

variable {e : Endian} {p check : List UInt8} {offset n value : Nat} {a : Answer}

/-- A slice that is in the packet has its length. -/
theorem length_slice (inside : offset + n ≤ p.length) : (slice p offset n).length = n := by
  simp [slice]
  omega

/-- The bytes of `out.iphdr`. -/
theorem length_outIphdr (long : 20 ≤ p.length) (two : check.length = 2) :
    (outIphdr p check).length = 20 := by
  simp only [outIphdr, List.length_append, length_wordBytes, two,
    length_slice (show 0 + 2 ≤ p.length by omega), length_slice (show 4 + 6 ≤ p.length by omega),
    length_slice (show 16 + 4 ≤ p.length by omega), length_slice (show 12 + 4 ≤ p.length by omega)]

/-- The bytes of `out.tcphdr`. -/
theorem length_outTcphdr (long : iphdrLen p + 20 ≤ p.length) (two : check.length = 2) :
    (outTcphdr p a check).length = 20 := by
  simp only [outTcphdr, htonl, List.length_append, length_wordBytes, two, List.length_cons,
    List.length_nil, length_slice (show iphdrLen p + 2 + 2 ≤ p.length by omega),
    length_slice (show iphdrLen p + 2 ≤ p.length by omega)]

/-- The sum of `out.iphdr` is that of the input with the length of the reply and the checksum. -/
theorem sumWords_outIphdr (long : 20 ≤ p.length) (two : check.length = 2) :
    sumWords e (outIphdr p check) = headerSum e p + sumWords e check := by
  have first := length_slice (show 0 + 2 ≤ p.length by omega)
  have second := length_slice (show 4 + 6 ≤ p.length by omega)
  have third := length_slice (show 16 + 4 ≤ p.length by omega)
  rw [outIphdr, sumWords_append (by simp [first, second, two, length_wordBytes]),
    sumWords_append (by simp [first, second, length_wordBytes]),
    sumWords_append (by simp [first, length_wordBytes]), sumWords_append (by simp [first]),
    sumWords_append (by simp [third]), headerSum]
  omega

/-- The sum of the segment and the pseudo header, with the checksum. -/
theorem sumWords_outTcphdr (long : iphdrLen p + 20 ≤ p.length) (two : check.length = 2) :
    sumWords e (slice p 16 4) + sumWords e (slice p 12 4) +
        (sumWords e (outTcphdr p (answer p) check) + sumWords e pseudo) =
      segmentSum e p + sumWords e check := by
  have first := length_slice (show iphdrLen p + 2 + 2 ≤ p.length by omega)
  have second := length_slice (show iphdrLen p + 2 ≤ p.length by omega)
  have numbers : ∀ value, (htonl value).length = 4 := fun value => by
    simp [htonl, length_wordBytes]
  have last : sumWords e [0, 0] = 0 := by cases e <;> rfl
  rw [outTcphdr, sumWords_append (by simp [first, second, two, numbers, length_wordBytes]), last,
    sumWords_append (by simp [first, second, numbers, length_wordBytes]),
    sumWords_append (by simp [first, second, numbers]),
    sumWords_append (by simp [first, second, numbers]),
    sumWords_append (by simp [first, second, numbers]),
    sumWords_append (by simp [first, second]), sumWords_append (by simp [first]), segmentSum,
    sumWords_append (by simp [numbers, length_wordBytes]),
    sumWords_append (by simp [numbers]), sumWords_append (by simp [numbers]),
    sumWords_append (by simp [numbers])]
  omega

end Sums

/-! ## The fields of a reply -/

section Fields

variable {p check : List UInt8} {offset n i : Nat}

/-- A byte of a slice. -/
theorem byte_slice (inside : i < n) : byte (slice p offset n) i = byte p (offset + i) := by
  simp [byte, slice, List.getD, inside]

/-- A byte of a slice that is known. -/
theorem byte_of_slice {part : List UInt8} (same : slice p offset n = part) (inside : i < n) :
    byte p (offset + i) = byte part i := by
  rw [← same, byte_slice inside]

/-- A slice in two parts. -/
theorem slice_add (p : List UInt8) (offset n m : Nat) :
    slice p offset (n + m) = slice p offset n ++ slice p (offset + n) m := by
  rw [slice, List.take_add, List.drop_drop, slice, slice]

/-- A slice of what comes after the first part. -/
theorem slice_skip {left right : List UInt8} {k : Nat} (before : left.length = k)
    (offset n : Nat) : slice (left ++ right) (k + offset) n = slice right offset n := by
  rw [slice, ← List.drop_drop, List.drop_left' before, slice]

/-- A slice that is the first part. -/
theorem slice_front {left right : List UInt8} (here : left.length = n) :
    slice (left ++ right) 0 n = left := List.take_left' here

/-- The fields of `out.iphdr` that are copied from the input, and its total length. -/
theorem outIphdr_slices (long : 20 ≤ p.length) (two : check.length = 2) (rest : List UInt8) :
    slice (outIphdr p check ++ rest) 0 2 = slice p 0 2 ∧
    slice (outIphdr p check ++ rest) 2 2 = wordBytes .big 40 ∧
    slice (outIphdr p check ++ rest) 4 6 = slice p 4 6 ∧
    slice (outIphdr p check ++ rest) 12 4 = slice p 16 4 ∧
    slice (outIphdr p check ++ rest) 16 4 = slice p 12 4 := by
  have part1 := length_slice (show 0 + 2 ≤ p.length by omega)
  have part2 := length_slice (show 4 + 6 ≤ p.length by omega)
  have source := length_slice (show 12 + 4 ≤ p.length by omega)
  have destination := length_slice (show 16 + 4 ≤ p.length by omega)
  have total := length_wordBytes .big 40
  have front : (slice p 0 2 ++ wordBytes .big 40 ++ slice p 4 6 ++ check).length = 12 := by
    simp [part1, total, part2, two]
  have regroup : outIphdr p check ++ rest =
      (slice p 0 2 ++ wordBytes .big 40 ++ slice p 4 6 ++ check) ++
        (slice p 16 4 ++ (slice p 12 4 ++ rest)) := by
    simp only [outIphdr, List.append_assoc]
  refine ⟨?_, ?_, ?_, ?_, ?_⟩
  · simp only [outIphdr, List.append_assoc]
    exact slice_front part1
  · simp only [outIphdr, List.append_assoc]
    exact (slice_skip part1 0 2).trans (slice_front total)
  · simp only [outIphdr, List.append_assoc]
    exact (slice_skip part1 2 6).trans ((slice_skip total 0 6).trans (slice_front part2))
  · rw [regroup]
    exact (slice_skip front 0 4).trans (slice_front destination)
  · rw [regroup]
    exact (slice_skip front 4 4).trans ((slice_skip destination 0 4).trans (slice_front source))

/-- The ports of `out.tcphdr`. -/
theorem outTcphdr_slices (long : iphdrLen p + 20 ≤ p.length) (a : Answer) (check : List UInt8) :
    slice (outTcphdr p a check) 0 2 = slice p (iphdrLen p + 2) 2 ∧
    slice (outTcphdr p a check) 2 2 = slice p (iphdrLen p) 2 := by
  have port1 := length_slice (show iphdrLen p + 2 + 2 ≤ p.length by omega)
  have port2 := length_slice (show iphdrLen p + 2 ≤ p.length by omega)
  simp only [outTcphdr, List.append_assoc]
  exact ⟨slice_front port1, (slice_skip port1 0 2).trans (slice_front port2)⟩

end Fields

/-! ## The replies -/

section Replies

variable {e : Endian} {p : List UInt8}

/-- The checksum that completes a sum, in the byte order of the host. -/
def complement (e : Endian) (sum : Nat) : List UInt8 := wordBytes e (0xFFFF - foldOnce sum)

/-- A complement has two bytes. -/
theorem length_complement (e : Endian) (sum : Nat) : (complement e sum).length = 2 :=
  length_wordBytes e _

/-- The value of a complement. -/
theorem sumWords_complement (e : Endian) (sum : Nat) :
    sumWords e (complement e sum) = 0xFFFF - foldOnce sum :=
  word_wordBytes e (Nat.sub_le _ _)

/-- The packet that `tcp_input` writes when no assertion fails. -/
def replyTo (e : Endian) (p : List UInt8) : List UInt8 :=
  outIphdr p (complement e (headerSum e p)) ++
    outTcphdr p (answer p) (complement e (segmentSum e p))

/-- The addresses of `out.iphdr`. -/
theorem drop_outIphdr (long : 20 ≤ p.length) {check : List UInt8} (two : check.length = 2) :
    (outIphdr p check).drop 12 = slice p 16 4 ++ slice p 12 4 := by
  have part1 := length_slice (show 0 + 2 ≤ p.length by omega)
  have part2 := length_slice (show 4 + 6 ≤ p.length by omega)
  exact List.drop_left' (by simp [part1, part2, two, length_wordBytes])

/-- `tcp_input` of a segment with its header: it aborts unless both sums fold at once. -/
theorem tcpInput_eq (low : 20 ≤ iphdrLen p)
    (whole : 20 ≤ tcpSegLen p ∧ doff p * 4 ≤ tcpSegLen p) :
    tcpInput e p =
      if foldOnce (headerSum e p) ≤ 0xFFFF ∧ foldOnce (segmentSum e p) ≤ 0xFFFF then
        if (answer p).response then .wrote (replyTo e p) else .silent
      else .aborted := by
  have long : iphdrLen p + 20 ≤ p.length := by
    have room := whole.1
    unfold tcpSegLen at room
    omega
  have zero : sumWords e [0, 0] = 0 := by cases e <;> rfl
  have header : sumWords e (outIphdr p [0, 0]) = headerSum e p := by
    rw [sumWords_outIphdr (by omega) rfl, zero, Nat.add_zero]
  have even : (outIphdr p [0, 0]).length % 2 = 0 := by rw [length_outIphdr (by omega) rfl]
  rw [tcpInput, if_pos whole, inChecksum_even even, header]
  by_cases fits1 : foldOnce (headerSum e p) ≤ 0xFFFF
  · have addresses := drop_outIphdr (show 20 ≤ p.length by omega)
      (length_complement e (headerSum e p))
    have source := length_slice (show 12 + 4 ≤ p.length by omega)
    have destination := length_slice (show 16 + 4 ≤ p.length by omega)
    have tcphdr := length_outTcphdr (a := answer p) long (show [0, 0].length = 2 from rfl)
    have segment : sumWords e (slice p 16 4 ++ slice p 12 4 ++ outTcphdr p (answer p) [0, 0] ++
        pseudo) = segmentSum e p := by
      rw [sumWords_append (by simp [source, destination, tcphdr]),
        sumWords_append (by simp [source, destination]), sumWords_append (by simp [destination]),
        Nat.add_assoc, sumWords_outTcphdr long rfl, zero, Nat.add_zero]
    have evenS : (slice p 16 4 ++ slice p 12 4 ++ outTcphdr p (answer p) [0, 0] ++
        pseudo).length % 2 = 0 := by simp [source, destination, tcphdr, pseudo]
    simp only [if_pos fits1, ← complement.eq_1, addresses, inChecksum_even evenS, segment]
    by_cases fits2 : foldOnce (segmentSum e p) ≤ 0xFFFF
    · simp only [fits1, fits2, and_self, if_true, replyTo, complement]
    · simp only [fits2, and_false, if_false]
  · simp only [fits1, false_and, if_false]

/-- The reply is valid exactly when the header of the input has no options. -/
theorem validReply_iff (accepted : Accepted p) (tcp : protocol p = 6)
    (long : iphdrLen p + 20 ≤ p.length) (fits1 : foldOnce (headerSum e p) ≤ 0xFFFF)
    (fits2 : foldOnce (segmentSum e p) ≤ 0xFFFF) : ValidReply p (replyTo e p) ↔ ihl p = 5 := by
  have low := accepted.low
  have two1 := length_complement e (headerSum e p)
  have two2 := length_complement e (segmentSum e p)
  have iphdr := length_outIphdr (show 20 ≤ p.length by omega) two1
  have tcphdr := length_outTcphdr (a := answer p) long two2
  have size : (replyTo e p).length = 40 := by rw [replyTo, List.length_append, iphdr, tcphdr]
  obtain ⟨start, total, middle, destination, source⟩ :=
    outIphdr_slices (show 20 ≤ p.length by omega) two1
      (outTcphdr p (answer p) (complement e (segmentSum e p)))
  rw [← replyTo] at start total middle destination source
  obtain ⟨port1, port2⟩ := outTcphdr_slices long (answer p) (complement e (segmentSum e p))
  have byte0 : byte (replyTo e p) 0 = byte p 0 :=
    (byte_of_slice start (show 0 < 2 by decide)).trans (byte_slice (by decide))
  have byte9 : byte (replyTo e p) 9 = byte p 9 :=
    (byte_of_slice middle (show 5 < 6 by decide)).trans (byte_slice (by decide))
  have sameLength : iphdrLen (replyTo e p) = iphdrLen p := by
    rw [iphdrLen, iphdrLen, ihl, ihl, byte0]
  constructor
  · intro valid
    have length := valid.headerLength
    rw [sameLength, iphdrLen] at length
    omega
  · intro plain
    refine ⟨?_, ?_, ?_, ?_, ?_, ?_, ⟨destination, source⟩,
      (slice_skip iphdr 0 2).trans port1, (slice_skip iphdr 2 2).trans port2⟩
    · rw [version, byte0]
      exact accepted.version
    · rw [sameLength, iphdrLen, plain]
    · have high : byte (replyTo e p) 2 = 0 := byte_of_slice total (show 0 < 2 by decide)
      have low : byte (replyTo e p) 3 = 40 := byte_of_slice total (show 1 < 2 by decide)
      rw [ntohs, high, low, size]
      rfl
    · rw [replyTo, List.take_left' iphdr]
      refine verifies_of_complement (e := e) fits1 ?_
      rw [sumWords_outIphdr (by omega) two1, sumWords_complement]
    · rw [protocol, byte9]
      exact tcp
    · have six : byte (replyTo e p) 9 = 6 := by
        rw [byte9]
        exact UInt8.toNat_inj.mp tcp
      have addresses : slice (replyTo e p) 12 8 = slice p 16 4 ++ slice p 12 4 := by
        rw [show 8 = 4 + 4 from rfl, slice_add, destination, source]
      have lengthD := length_slice (show 16 + 4 ≤ p.length by omega)
      have lengthS := length_slice (show 12 + 4 ≤ p.length by omega)
      have real : pseudoHeader (replyTo e p) ++ (replyTo e p).drop 20 =
          slice p 16 4 ++ slice p 12 4 ++ pseudo ++
            outTcphdr p (answer p) (complement e (segmentSum e p)) := by
        rw [pseudoHeader, addresses, six, size, replyTo, List.drop_left' iphdr,
          List.append_assoc (slice p 16 4 ++ slice p 12 4) [0, 6]]
        rfl
      refine verifies_of_complement (e := e) fits2 ?_
      rw [real, sumWords_append (by simp [lengthD, lengthS, pseudo]),
        sumWords_append (by simp [lengthD, lengthS]), sumWords_append (by simp [lengthD]),
        ← sumWords_complement, ← sumWords_outTcphdr long two2]
      omega

/-- For a TCP packet that `main` accepts: a segment that asks for a reply gets a valid one, with no
assertion failing, exactly when the IP header has no options and the sums of both checksums fold at
once. Whenever a reply is written, it is valid exactly when the IP header has no options. -/
theorem tcp_reply_iff (e : Endian) (p : Packet) (accepted : accepts e p.val = some true)
    (tcp : protocol p.val = 6) :
    ((AsksReply p.val →
        ∃ reply, discardtcpRound e p.val = .wrote reply ∧ ValidReply p.val reply) ↔
      (AsksReply p.val → ihl p.val = 5 ∧ foldOnce (headerSum e p.val) ≤ 0xFFFF ∧
        foldOnce (segmentSum e p.val) ≤ 0xFFFF)) ∧
    ∀ reply, discardtcpRound e p.val = .wrote reply →
      AsksReply p.val ∧ (ValidReply p.val reply ↔ ihl p.val = 5) := by
  have header := accepted_of_accepts accepted
  have round : discardtcpRound e p.val = tcpInput e p.val := received_tcp accepted tcp
  rw [round]
  by_cases whole : 20 ≤ tcpSegLen p.val ∧ doff p.val * 4 ≤ tcpSegLen p.val
  · have long : iphdrLen p.val + 20 ≤ p.val.length := by
      have room := whole.1
      unfold tcpSegLen at room
      omega
    rw [tcpInput_eq header.low whole]
    by_cases fits : foldOnce (headerSum e p.val) ≤ 0xFFFF ∧ foldOnce (segmentSum e p.val) ≤ 0xFFFF
    · have valid := validReply_iff header tcp long fits.1 fits.2
      rw [if_pos fits]
      by_cases due : (answer p.val).response = true
      · simp [AsksReply, whole, due, fits, valid]
      · simp [AsksReply, due]
    · rw [if_neg fits]
      simp [fits]
  · have silent : tcpInput e p.val = .silent := if_neg whole
    simp [silent, AsksReply, whole]

/-- A segment with `syn` from port 1000, without options. -/
def plainSyn : Packet :=
  ⟨[69, 0, 0, 40, 0, 1, 0, 0, 64, 6, 102, 205, 10, 0, 0, 1, 10, 0, 0, 2,
    3, 232, 0, 80, 0, 0, 0, 7, 0, 0, 0, 0, 80, 2, 255, 255, 151, 161, 0, 0], by decide⟩

/-- The same segment after a header of 24 bytes. -/
def optionsSyn : Packet :=
  ⟨[70, 0, 0, 44, 0, 1, 0, 0, 64, 6, 99, 200, 10, 0, 0, 1, 10, 0, 0, 2, 1, 1, 1, 0,
    3, 232, 0, 80, 0, 0, 0, 7, 0, 0, 0, 0, 80, 2, 255, 255, 151, 161, 0, 0], by decide⟩

/-- The same segment from port 42670. -/
def carrySyn : Packet :=
  ⟨[69, 0, 0, 40, 0, 1, 0, 0, 64, 6, 102, 205, 10, 0, 0, 1, 10, 0, 0, 2,
    166, 174, 0, 80, 0, 0, 0, 7, 0, 0, 0, 0, 80, 2, 255, 255, 244, 218, 0, 0], by decide⟩

/-- The segment without options gets a valid reply. -/
theorem tcp_reply_plain : accepts .little plainSyn.val = some true ∧
    ∃ reply, discardtcpRound .little plainSyn.val = .wrote reply ∧
      ValidReply plainSyn.val reply := by
  have accepted : accepts .little plainSyn.val = some true := by decide +kernel
  have asks : AsksReply plainSyn.val := by
    unfold AsksReply
    decide +kernel
  refine ⟨accepted, (tcp_reply_iff .little plainSyn accepted (by decide)).1.mpr ?_ asks⟩
  intro _
  decide +kernel

/-- The reply to the segment with options has the header length of the input and is not valid, and
for the segment from port 42670 an assertion fails. -/
theorem tcp_reply_invalid :
    (accepts .little optionsSyn.val = some true ∧ protocol optionsSyn.val = 6 ∧
      ∃ reply, discardtcpRound .little optionsSyn.val = .wrote reply ∧ iphdrLen reply = 24 ∧
        ¬ ValidReply optionsSyn.val reply) ∧
    accepts .little carrySyn.val = some true ∧ protocol carrySyn.val = 6 ∧
      AsksReply carrySyn.val ∧ discardtcpRound .little carrySyn.val = .aborted := by
  have wrote : discardtcpRound .little optionsSyn.val =
      .wrote (replyTo .little optionsSyn.val) := by decide +kernel
  have length : iphdrLen (replyTo .little optionsSyn.val) = 24 := by decide +kernel
  refine ⟨⟨by decide +kernel, by decide, _, wrote, length, fun valid => ?_⟩, by decide +kernel,
    by decide, ?_, by decide +kernel⟩
  · have twenty := valid.headerLength
    rw [length] at twenty
    exact absurd twenty (by decide)
  · unfold AsksReply
    decide +kernel

end Replies

end CodeLearning.Tun
