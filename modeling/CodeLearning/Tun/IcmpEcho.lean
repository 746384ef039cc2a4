import CodeLearning.Tun.Packet

/-!
# Echo replies

`icmp_input` turns an echo request into its reply in a copy of the packet: it exchanges the
addresses, clears the type and adds 8 to the checksum. Both changes are made through an overlay
with an IP header of 20 bytes, whatever the length of the header is, and the addition does not add
the carry back.
-/

namespace CodeLearning.Tun

open InternetChecksum

/-- `std::swap` of the addresses of a packet. -/
def exchange (p : List UInt8) : List UInt8 :=
  p.take 12 ++ (slice p 16 4 ++ slice p 12 4) ++ p.drop 20

/-- A byte string with a word put into it. -/
def putWord (e : Endian) (p : List UInt8) (offset value : Nat) : List UInt8 :=
  match wordBytes e value with
  | [first, second] => (p.set offset first).set (offset + 1) second
  | _ => p

/-- `ICMP_ECHO`. -/
def icmpEcho : UInt8 := 8

/-- `ICMP_ECHOREPLY`. -/
def icmpEchoReply : UInt8 := 0

/-- `icmp_input`; the overlay has the type at offset 20 and the checksum at offset 22. -/
def icmpInput (e : Endian) (p : List UInt8) : Outcome :=
  if byte p (iphdrLen p) = icmpEcho then
    let output := p.set 20 icmpEchoReply
    let checksum := (word e (byte output 22) (byte output 23) + icmpEcho.toNat) % 0x10000
    .wrote (exchange (putWord e output 22 checksum))
  else .silent

/-- A round of the loop of `main` in `icmpecho.cc`, which has no `tcp_input`. -/
def icmpechoRound (e : Endian) : List UInt8 → Outcome := received e (icmpInput e) fun _ => .silent

/-- A packet carries an echo request with a valid checksum. -/
structure EchoRequest (p : List UInt8) : Prop where
  /-- The protocol is ICMP. -/
  icmp : protocol p = 1
  /-- The ICMP header is in the packet. -/
  present : iphdrLen p + 8 ≤ p.length
  /-- The type is that of a request. -/
  echo : byte p (iphdrLen p) = icmpEcho
  /-- The checksum verifies. -/
  verifies : Verifies (p.drop (iphdrLen p))

/-- A packet with its addresses exchanged, the type of a reply and another ICMP checksum. -/
def replyWith (p : List UInt8) (checksum : Nat) : List UInt8 :=
  putWord .little ((exchange p).set (iphdrLen p) icmpEchoReply) (iphdrLen p + 2) checksum

/-- A correct reply to an echo request. -/
structure EchoReply (p reply : List UInt8) : Prop where
  /-- Only the addresses, the type and the checksum are changed. -/
  changed : ∃ checksum ≤ 0xFFFF, reply = replyWith p checksum
  /-- The checksum of the IP header verifies. -/
  header : Verifies (reply.take (iphdrLen p))
  /-- The checksum of the ICMP message verifies. -/
  message : Verifies (reply.drop (iphdrLen p))

section Replies

variable {e : Endian} {p front back : List UInt8} {i : Nat}

/-- Bytes are put after the fixed part of a header. -/
theorem set_after (long : front.length = 20) (i : Nat) (x : UInt8) :
    (front ++ back).set (20 + i) x = front ++ back.set i x := by
  rw [List.set_append_right _ _ (by omega), long, Nat.add_sub_cancel_left]

/-- The addresses are exchanged in the fixed part of the header. -/
theorem exchange_append (long : front.length = 20) (back : List UInt8) :
    exchange (front ++ back) = exchange front ++ back := by
  have early : (front ++ back).take 12 = front.take 12 :=
    List.take_append_of_le_length (by omega)
  have source : slice (front ++ back) 12 4 = slice front 12 4 := by
    rw [slice, List.drop_append_of_le_length (by omega), List.take_append_of_le_length, slice]
    simp [long]
  have destination : slice (front ++ back) 16 4 = slice front 16 4 := by
    rw [slice, List.drop_append_of_le_length (by omega), List.take_append_of_le_length, slice]
    simp [long]
  have rest : (front ++ back).drop 20 = back := by
    rw [← long, List.drop_left]
  have none : front.drop 20 = [] := List.drop_eq_nil_of_le (by omega)
  simp only [exchange, early, source, destination, rest, none, List.append_nil]

/-- A header has as many bytes with its addresses exchanged. -/
theorem length_exchange (long : front.length = 20) : (exchange front).length = 20 := by
  simp [exchange, slice, long]

/-- The exchange of the addresses leaves the sum of the words. -/
theorem sumWords_exchange (long : front.length = 20) :
    sumWords e (exchange front) = sumWords e front := by
  have none : front.drop 20 = [] := List.drop_eq_nil_of_le (by omega)
  have whole : front = front.take 12 ++ (slice front 12 4 ++ slice front 16 4) := by
    rw [← take_twenty, List.take_of_length_le (by omega)]
  have early : (front.take 12).length % 2 = 0 := by simp [long]
  have source : (slice front 12 4).length % 2 = 0 := by simp [slice, long]
  have destination : (slice front 16 4).length % 2 = 0 := by simp [slice, long]
  calc sumWords e (exchange front)
      = sumWords e (front.take 12) +
          (sumWords e (slice front 16 4) + sumWords e (slice front 12 4)) := by
        rw [exchange, none, List.append_nil, sumWords_append early, sumWords_append destination]
    _ = sumWords e (front.take 12) +
          (sumWords e (slice front 12 4) + sumWords e (slice front 16 4)) := by
        rw [Nat.add_comm (sumWords e (slice front 16 4))]
    _ = sumWords e front := by
        rw [← sumWords_append source, ← sumWords_append early, ← whole]

/-- A word is put after the fixed part of a header. -/
theorem putWord_after (long : front.length = 20) (e : Endian) (i value : Nat) :
    putWord e (front ++ back) (20 + i) value = front ++ putWord e back i value := by
  cases e <;> simp only [putWord, wordBytes, Nat.add_assoc, set_after long]

/-- A byte after the fixed part of a header. -/
theorem byte_after (long : front.length = 20) (i : Nat) :
    byte (front ++ back) (20 + i) = byte back i := by
  simp [byte, List.getD, List.getElem?_append_right (show front.length ≤ 20 + i by omega), long]

/-- A byte elsewhere than a word that is put. -/
theorem byte_putWord (e : Endian) (p : List UInt8) {offset : Nat} (value : Nat)
    (apart : i ≠ offset ∧ i ≠ offset + 1) : byte (putWord e p offset value) i = byte p i := by
  cases e <;>
    simp [byte, putWord, wordBytes, List.getD, List.getElem?_set_ne apart.1.symm,
      List.getElem?_set_ne apart.2.symm]

/-- The exchange of the addresses leaves the bytes after them. -/
theorem byte_exchange (long : 20 ≤ p.length) (after : 20 ≤ i) : byte (exchange p) i = byte p i := by
  have front : (p.take 20).length = 20 := by simp [long]
  obtain ⟨j, rfl⟩ := Nat.exists_eq_add_of_le after
  calc byte (exchange p) (20 + j)
      = byte (exchange (p.take 20) ++ p.drop 20) (20 + j) := by
        rw [← exchange_append front, List.take_append_drop]
    _ = byte (p.drop 20) j := byte_after (length_exchange front) j
    _ = byte (p.take 20 ++ p.drop 20) (20 + j) := (byte_after front j).symm
    _ = byte p (20 + j) := by rw [List.take_append_drop]

/-- With options in the header the type of the request is not cleared. -/
theorem not_echoReply_of_options (long : iphdrLen p < p.length) (options : 24 ≤ iphdrLen p)
    (echo : byte p (iphdrLen p) = icmpEcho) {reply : List UInt8}
    (wrote : icmpInput e p = .wrote reply) : ¬ EchoReply p reply := by
  intro correct
  obtain ⟨checksum, -, changed⟩ := correct.changed
  simp only [icmpInput, if_pos echo, Outcome.wrote.injEq] at wrote
  have kept : byte reply (iphdrLen p) = icmpEcho := by
    rw [← wrote, byte_exchange _ (by omega), byte_putWord _ _ _ (by omega), ← echo]
    · simp [byte, List.getD, List.getElem?_set_ne (show 20 ≠ iphdrLen p by omega)]
    · cases e <;> simp [putWord, wordBytes] <;> omega
  have cleared : byte reply (iphdrLen p) = icmpEchoReply := by
    have inside : iphdrLen p < (exchange p).length := by
      simp [exchange, slice]
      omega
    rw [changed, replyWith, byte_putWord _ _ _ (by omega), byte, List.getD,
      List.getElem?_set_self inside]
    rfl
  rw [kept] at cleared
  exact absurd cleared (by decide)

/-- A packet without options as its header and the start of its ICMP message. -/
theorem exists_message (long : 28 ≤ p.length) :
    ∃ front type code first second rest, front.length = 20 ∧
      p = front ++ (type :: code :: first :: second :: rest) := by
  have size : (p.drop 20).length ≥ 8 := by simp; omega
  match shape : p.drop 20, size with
  | type :: code :: first :: second :: rest, _ =>
    refine ⟨p.take 20, type, code, first, second, rest, by simp; omega, ?_⟩
    rw [← shape, List.take_append_drop]

/-- Without options the reply has the header with its addresses exchanged, no type and the next
checksum. -/
theorem icmpInput_plain {code first second : UInt8} {rest : List UInt8}
    (long : front.length = 20)
    (plain : iphdrLen (front ++ (icmpEcho :: code :: first :: second :: rest)) = 20) :
    icmpInput .little (front ++ (icmpEcho :: code :: first :: second :: rest)) =
      .wrote (exchange front ++ (icmpEchoReply :: code ::
        (wordBytes .little ((word .little first second + 8) % 0x10000) ++ rest))) := by
  have echo : byte (front ++ (icmpEcho :: code :: first :: second :: rest)) 20 = icmpEcho :=
    byte_after long 0
  have cleared : (front ++ (icmpEcho :: code :: first :: second :: rest)).set 20 icmpEchoReply =
      front ++ (icmpEchoReply :: code :: first :: second :: rest) := set_after long 0 _
  have low : byte (front ++ (icmpEchoReply :: code :: first :: second :: rest)) 22 = first :=
    byte_after long 2
  have high : byte (front ++ (icmpEchoReply :: code :: first :: second :: rest)) 23 = second :=
    byte_after long 3
  simp only [icmpInput, plain, if_pos echo, cleared, low, high]
  rw [show 22 = 20 + 2 from rfl, putWord_after long, exchange_append long]
  rfl

/-- The header of a packet that was accepted verifies with its addresses exchanged. -/
theorem verifies_exchange (long : front.length = 20) (verifies : Verifies front) :
    Verifies (exchange front) := by
  rw [verifies_iff .big] at verifies ⊢
  rwa [sumWords_exchange long]

/-- The checksum of the reply verifies exactly when 8 is added to it without a carry. -/
theorem message_verifies_iff {code first second : UInt8} {rest : List UInt8}
    (verifies : Verifies (icmpEcho :: code :: first :: second :: rest)) :
    Verifies (icmpEchoReply :: code ::
        (wordBytes .little ((word .little first second + 8) % 0x10000) ++ rest)) ↔
      word .little first second ≤ 0xFFF7 := by
  rw [verifies_iff .little] at verifies ⊢
  have reply : sumWords .little (icmpEchoReply :: code ::
      (wordBytes .little ((word .little first second + 8) % 0x10000) ++ rest)) =
        256 * code.toNat + ((word .little first second + 8) % 0x10000 + sumWords .little rest) := by
    have field := word_wordBytes .little
      (show (word .little first second + 8) % 0x10000 ≤ 0xFFFF by omega)
    rw [sumWords, sumWords_append (by rw [length_wordBytes]), field]
    simp [word, icmpEchoReply]
  have request : sumWords .little (icmpEcho :: code :: first :: second :: rest) =
      8 + 256 * code.toNat + (word .little first second + sumWords .little rest) := by
    rw [sumWords, sumWords]
    rfl
  have bound : word .little first second ≤ 0xFFFF := by
    have low := first.toNat_lt
    have high := second.toNat_lt
    simp only [word]
    omega
  rw [request] at verifies
  rw [reply]
  omega

/-- The reply to a request without options is correct exactly when 8 is added without a carry. -/
theorem echoReply_plain_iff {code first second : UInt8} {rest : List UInt8}
    (long : front.length = 20)
    (plain : iphdrLen (front ++ (icmpEcho :: code :: first :: second :: rest)) = 20)
    (header : Verifies front)
    (message : Verifies (icmpEcho :: code :: first :: second :: rest)) :
    EchoReply (front ++ (icmpEcho :: code :: first :: second :: rest))
        (exchange front ++ (icmpEchoReply :: code ::
          (wordBytes .little ((word .little first second + 8) % 0x10000) ++ rest))) ↔
      word .little first second ≤ 0xFFF7 := by
  have longX := length_exchange long
  rw [← message_verifies_iff message]
  constructor
  · intro correct
    have verifies := correct.message
    rwa [plain, List.drop_left' longX] at verifies
  · intro verifies
    refine ⟨⟨(word .little first second + 8) % 0x10000, by omega, ?_⟩, ?_, ?_⟩
    · have cleared : (exchange front ++ (icmpEcho :: code :: first :: second :: rest)).set 20
          icmpEchoReply = exchange front ++ (icmpEchoReply :: code :: first :: second :: rest) :=
        set_after longX 0 _
      rw [replyWith, plain, exchange_append long, cleared, putWord_after longX]
      rfl
    · rw [plain, List.take_left' longX]
      exact verifies_exchange long header
    · rwa [plain, List.drop_left' longX]

/-- For a packet that `main` accepts with a valid echo request, the program writes a correct reply
exactly when the IP header has no options and the checksum of the request is not one of the last
eight values. -/
theorem echo_reply_iff (p : Packet) (accepted : accepts .little p.val = some true)
    (request : EchoRequest p.val) :
    (∃ reply, icmpechoRound .little p.val = .wrote reply ∧ EchoReply p.val reply) ↔
      ihl p.val = 5 ∧ word .little (byte p.val (iphdrLen p.val + 2))
        (byte p.val (iphdrLen p.val + 3)) ≤ 0xFFF7 := by
  obtain ⟨-, low, high, header⟩ := accepted_of_accepts accepted
  have present := request.present
  have round : icmpechoRound .little p.val = icmpInput .little p.val :=
    received_icmp accepted request.icmp
  rw [round]
  by_cases plain : ihl p.val = 5
  · have twenty : iphdrLen p.val = 20 := by rw [iphdrLen, plain]
    obtain ⟨front, type, code, first, second, rest, long, shape⟩ :=
      exists_message (show 28 ≤ p.val.length by omega)
    have echo := request.echo
    have message := request.verifies
    rw [shape] at twenty header
    rw [shape, twenty] at echo message
    rw [twenty, List.take_left' long] at header
    rw [List.drop_left' long] at message
    obtain rfl : type = icmpEcho := (byte_after long 0).symm.trans echo
    have low : byte p.val (iphdrLen p.val + 2) = first := by
      rw [shape, twenty]
      exact byte_after long 2
    have high : byte p.val (iphdrLen p.val + 3) = second := by
      rw [shape, twenty]
      exact byte_after long 3
    rw [low, high, shape, icmpInput_plain long twenty, ← shape]
    simp only [Outcome.wrote.injEq, exists_eq_left', plain, true_and]
    rw [shape]
    exact echoReply_plain_iff long twenty header message
  · have options : 24 ≤ iphdrLen p.val := by
      unfold iphdrLen at low ⊢
      omega
    refine iff_of_false ?_ fun condition => plain condition.1
    rintro ⟨reply, wrote, correct⟩
    exact not_echoReply_of_options (by omega) options request.echo wrote correct

/-- An echo request without options. -/
def plainRequest : Packet :=
  ⟨[69, 0, 0, 28, 0, 1, 0, 0, 64, 1, 102, 222, 10, 0, 0, 1, 10, 0, 0, 2,
    8, 0, 247, 253, 0, 1, 0, 1], by decide⟩

/-- An echo request with a header of 24 bytes. -/
def optionsRequest : Packet :=
  ⟨[70, 0, 0, 32, 0, 1, 0, 0, 64, 1, 99, 217, 10, 0, 0, 1, 10, 0, 0, 2, 1, 1, 1, 0,
    8, 0, 247, 253, 0, 1, 0, 1], by decide⟩

/-- An echo request whose checksum is one of the last eight values. -/
def carryRequest : Packet :=
  ⟨[69, 0, 0, 28, 0, 1, 0, 0, 64, 1, 102, 222, 10, 0, 0, 1, 10, 0, 0, 2,
    8, 0, 254, 255, 248, 255, 255, 255], by decide⟩

/-- The request without options gets its reply. -/
theorem echo_reply_plain : accepts .little plainRequest.val = some true ∧
    ∃ reply, icmpechoRound .little plainRequest.val = .wrote reply ∧
      EchoReply plainRequest.val reply := by
  have accepted : accepts .little plainRequest.val = some true := by decide +kernel
  have request : EchoRequest plainRequest.val := by constructor <;> decide +kernel
  exact ⟨accepted, (echo_reply_iff plainRequest accepted request).mpr (by decide +kernel)⟩

/-- A packet is accepted with a valid echo request, and no correct reply is written. -/
def WronglyAnswered (p : Packet) : Prop :=
  accepts .little p.val = some true ∧ EchoRequest p.val ∧
    ¬ ∃ reply, icmpechoRound .little p.val = .wrote reply ∧ EchoReply p.val reply

/-- Neither the request with options nor the one with a carry gets a correct reply. -/
theorem echo_reply_incorrect : WronglyAnswered optionsRequest ∧ WronglyAnswered carryRequest := by
  constructor
  · have request : EchoRequest optionsRequest.val := by constructor <;> decide +kernel
    refine ⟨by decide +kernel, request, ?_⟩
    rintro ⟨reply, wrote, correct⟩
    have round : icmpechoRound .little optionsRequest.val =
        icmpInput .little optionsRequest.val := by decide +kernel
    rw [round] at wrote
    exact not_echoReply_of_options (by decide +kernel) (by decide +kernel) request.echo wrote
      correct
  · have request : EchoRequest carryRequest.val := by constructor <;> decide +kernel
    refine ⟨by decide +kernel, request, ?_⟩
    rintro ⟨reply, wrote, correct⟩
    have computed : icmpechoRound .little carryRequest.val =
        .wrote [69, 0, 0, 28, 0, 1, 0, 0, 64, 1, 102, 222, 10, 0, 0, 2, 10, 0, 0, 1,
          0, 0, 6, 0, 248, 255, 255, 255] := by decide +kernel
    rw [computed] at wrote
    obtain rfl := Outcome.wrote.inj wrote
    exact absurd correct.message (by decide +kernel)

end Replies

end CodeLearning.Tun
