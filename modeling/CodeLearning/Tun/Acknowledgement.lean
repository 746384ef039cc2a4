import CodeLearning.Tun.DiscardTcp

/-!
# Acknowledgement numbers of the discarding TCP server

A segment takes up as many sequence numbers as it has payload bytes, and one more for each of its
flags `syn` and `fin`. `tcp_input` computes the acknowledgement number in three branches: with
either flag it adds one and forgets the payload and the other flag, and without a flag it adds
`payload_len`, which counts a part of the header when the data offset is smaller than the header.
-/

namespace CodeLearning.Tun

open InternetChecksum

/-- The payload bytes after the TCP header, which has 20 bytes and the options that `doff`
announces. -/
def presentLen (p : List UInt8) : Nat := tcpSegLen p - max 20 (doff p * 4)

/-- The sequence numbers that a segment takes up. -/
def occupied (p : List UInt8) : Nat := presentLen p + (syn p).toNat + (fin p).toNat

/-- `ack_seq` of a packet with an IP header of 20 bytes. -/
def ackSeq (reply : List UInt8) : Nat := ntohl reply 28

/-- The segments that a branch of `tcp_input` acknowledges in full: one flag and no payload, or no
flag and a data offset that covers the header. -/
def CountedInFull (p : List UInt8) : Prop :=
  if syn p then fin p = false ∧ presentLen p = 0
  else if fin p then presentLen p = 0
  else 5 ≤ doff p

section Numbers

variable {e : Endian} {p : List UInt8} {n a b offset : Nat}

/-- The field that `htonl` writes is read back modulo `2 ^ 32`. -/
theorem ntohl_htonl (field : slice p offset 4 = htonl n) : ntohl p offset = n % 2 ^ 32 := by
  have first : byte p (offset + 0) = byte (htonl n) 0 := byte_of_slice field (by decide)
  have second : byte p (offset + 1) = byte (htonl n) 1 := byte_of_slice field (by decide)
  have third : byte p (offset + 2) = byte (htonl n) 2 := byte_of_slice field (by decide)
  have fourth : byte p (offset + 3) = byte (htonl n) 3 := byte_of_slice field (by decide)
  rw [Nat.add_zero] at first
  simp only [ntohl, ntohs, word, Nat.add_assoc, Nat.reduceAdd, first, second, third, fourth]
  simp only [byte, htonl, wordBytes, List.cons_append, List.nil_append, List.getD_cons_zero,
    List.getD_cons_succ, UInt8.toNat_ofNat', Nat.reducePow]
  omega

/-- The acknowledgement number of the reply is that of the answer. -/
theorem ackSeq_replyTo (low : 20 ≤ iphdrLen p) (long : iphdrLen p + 20 ≤ p.length) :
    ackSeq (replyTo e p) = (answer p).ackSeq % 2 ^ 32 := by
  have iphdr := length_outIphdr (show 20 ≤ p.length by omega) (length_complement e (headerSum e p))
  have port1 := length_slice (show iphdrLen p + 2 + 2 ≤ p.length by omega)
  have port2 := length_slice (show iphdrLen p + 2 ≤ p.length by omega)
  have four : ∀ n, (htonl n).length = 4 := fun n => by simp [htonl, length_wordBytes]
  refine ntohl_htonl ?_
  have skipped : slice (replyTo e p) (20 + 8) 4 =
      slice (outTcphdr p (answer p) (complement e (segmentSum e p))) 8 4 := slice_skip iphdr 8 4
  have before : (slice p (iphdrLen p + 2) 2 ++ slice p (iphdrLen p) 2 ++
      htonl (answer p).seq).length = 8 := by
    simp only [List.length_append, port1, port2, four]
  have regroup : outTcphdr p (answer p) (complement e (segmentSum e p)) =
      (slice p (iphdrLen p + 2) 2 ++ slice p (iphdrLen p) 2 ++ htonl (answer p).seq) ++
        (htonl (answer p).ackSeq ++ ([0x50, (answer p).flags] ++ wordBytes .big 5000 ++
          complement e (segmentSum e p) ++ [0, 0])) := by
    simp only [outTcphdr, List.append_assoc]
  rw [skipped, regroup]
  exact (slice_skip before 0 4).trans (slice_front (four _))

/-- Small numbers added to one number agree modulo `2 ^ 32` only when they are equal. -/
theorem add_mod_eq_iff (smallA : a < 2 ^ 32) (smallB : b < 2 ^ 32) :
    (n + a) % 2 ^ 32 = (n + b) % 2 ^ 32 ↔ a = b := by
  omega

/-- The answer acknowledges what the segment takes up exactly when its branch counts all of it. -/
theorem answer_ackSeq_iff (short : p.length ≤ ethFrameLen) (due : (answer p).response = true) :
    (answer p).ackSeq % 2 ^ 32 = (seq p + occupied p) % 2 ^ 32 ↔ CountedInFull p := by
  have bounded : tcpSegLen p ≤ 1514 := Nat.le_trans (Nat.sub_le _ _) short
  have present : presentLen p ≤ 1514 := Nat.le_trans (Nat.sub_le _ _) bounded
  have taken : occupied p < 2 ^ 32 := by
    have flag1 := Bool.toNat_le (syn p)
    have flag2 := Bool.toNat_le (fin p)
    unfold occupied
    omega
  unfold answer at due ⊢
  unfold CountedInFull
  cases hasSyn : syn p with
  | true =>
    simp only [if_true]
    rw [add_mod_eq_iff (by decide) taken, occupied, hasSyn]
    cases hasFin : fin p with
    | true => simp
    | false => simp [eq_comm]
  | false =>
    simp only [hasSyn, Bool.false_eq_true, if_false] at due ⊢
    cases hasFin : fin p with
    | true =>
      simp only [if_true]
      rw [add_mod_eq_iff (by decide) taken, occupied, hasSyn, hasFin]
      simp [eq_comm]
    | false =>
      simp only [hasFin, Bool.false_eq_true, if_false] at due ⊢
      have some : 0 < payloadLen p := by
        by_contra none_
        simp [none_] at due
      have counted : payloadLen p < 2 ^ 32 := by
        unfold payloadLen
        unfold tcpSegLen at bounded
        omega
      rw [if_pos some, add_mod_eq_iff counted taken, occupied, hasSyn, hasFin]
      unfold payloadLen presentLen tcpSegLen at *
      simp only [Bool.toNat_false, Nat.add_zero]
      omega

end Numbers

/-- For a TCP packet that `main` accepts and `tcp_input` answers: the acknowledgement number of the
reply is the sequence number plus the payload bytes present plus one for each of `syn` and `fin`,
modulo `2 ^ 32`, exactly when the segment has one flag and no payload, or no flag and a data offset
that covers the header. -/
theorem ack_seq_iff (e : Endian) (p : Packet) (accepted : accepts e p.val = some true)
    (tcp : protocol p.val = 6) (reply : List UInt8)
    (wrote : discardtcpRound e p.val = .wrote reply) :
    ackSeq reply = (seq p.val + occupied p.val) % 2 ^ 32 ↔ CountedInFull p.val := by
  have header := accepted_of_accepts accepted
  have round : discardtcpRound e p.val = tcpInput e p.val := received_tcp accepted tcp
  rw [round] at wrote
  by_cases whole : 20 ≤ tcpSegLen p.val ∧ doff p.val * 4 ≤ tcpSegLen p.val
  · have long : iphdrLen p.val + 20 ≤ p.val.length := by
      have room := whole.1
      unfold tcpSegLen at room
      omega
    rw [tcpInput_eq header.low whole] at wrote
    split at wrote
    · split at wrote
      · rename_i due
        cases wrote
        rw [ackSeq_replyTo header.low long]
        exact answer_ackSeq_iff p.property due
      · cases wrote
    · cases wrote
  · rw [tcpInput, if_neg whole] at wrote
    cases wrote

/-- A segment with `syn` and `fin` and no payload. -/
def synFin : Packet :=
  ⟨[69, 0, 0, 40, 0, 1, 0, 0, 64, 6, 102, 205, 10, 0, 0, 1, 10, 0, 0, 2,
    3, 232, 0, 80, 0, 0, 0, 7, 0, 0, 0, 0, 80, 3, 255, 255, 151, 160, 0, 0], by decide⟩

/-- A segment with `fin` and one byte of payload. -/
def finData : Packet :=
  ⟨[69, 0, 0, 41, 0, 1, 0, 0, 64, 6, 102, 204, 10, 0, 0, 1, 10, 0, 0, 2,
    3, 232, 0, 80, 0, 0, 0, 7, 0, 0, 0, 0, 80, 1, 255, 255, 86, 161, 0, 0, 65], by decide⟩

/-- A segment with a data offset of 16 bytes and one byte after the header. -/
def shortOffset : Packet :=
  ⟨[69, 0, 0, 41, 0, 1, 0, 0, 64, 6, 102, 204, 10, 0, 0, 1, 10, 0, 0, 2,
    3, 232, 0, 80, 0, 0, 0, 7, 0, 0, 0, 0, 64, 16, 255, 255, 102, 146, 0, 0, 65], by decide⟩

/-- A segment with only `syn` is acknowledged in full. -/
theorem ack_seq_syn : ∃ reply, discardtcpRound .little plainSyn.val = .wrote reply ∧
    ackSeq reply = (seq plainSyn.val + occupied plainSyn.val) % 2 ^ 32 := by
  have wrote : discardtcpRound .little plainSyn.val = .wrote (replyTo .little plainSyn.val) := by
    decide +kernel
  refine ⟨_, wrote, (ack_seq_iff .little plainSyn (by decide +kernel) (by decide) _ wrote).mpr ?_⟩
  unfold CountedInFull
  decide +kernel

/-- The second flag, the payload of a segment with a flag, and a data offset that does not cover
the header are counted wrongly. -/
theorem ack_seq_wrong :
    (∃ reply, accepts .little synFin.val = some true ∧ protocol synFin.val = 6 ∧
      discardtcpRound .little synFin.val = .wrote reply ∧ ackSeq reply = 8 ∧
      (seq synFin.val + occupied synFin.val) % 2 ^ 32 = 9) ∧
    (∃ reply, accepts .little finData.val = some true ∧ protocol finData.val = 6 ∧
      discardtcpRound .little finData.val = .wrote reply ∧ ackSeq reply = 8 ∧
      (seq finData.val + occupied finData.val) % 2 ^ 32 = 9) ∧
    (∃ reply, accepts .little shortOffset.val = some true ∧ protocol shortOffset.val = 6 ∧
      discardtcpRound .little shortOffset.val = .wrote reply ∧ ackSeq reply = 12 ∧
      (seq shortOffset.val + occupied shortOffset.val) % 2 ^ 32 = 8) := by
  refine ⟨⟨replyTo .little synFin.val, ?_⟩, ⟨replyTo .little finData.val, ?_⟩,
    ⟨replyTo .little shortOffset.val, ?_⟩⟩
  · decide +kernel
  · decide +kernel
  · decide +kernel

end CodeLearning.Tun
