import CodeLearning.Lib.InternetChecksum

/-!
# Packets on a tunnel interface

The programs read one packet after the other into a buffer and check its IP header before they
answer it. A packet is the list of the bytes that were read. `in_checksum` adds the words of a
buffer in the byte order of the host and folds the carries once; an assertion that fails ends the
program.
-/

namespace CodeLearning.Tun

open InternetChecksum

/-- `ETH_FRAME_LEN`, the size of the buffers. -/
def ethFrameLen : Nat := 1514

/-- What `read` returned: no more bytes than fit in the buffer. -/
abbrev Packet := { bytes : List UInt8 // bytes.length ≤ ethFrameLen }

/-- What a program does with a packet. -/
inductive Outcome where
  /-- An assertion fails. -/
  | aborted
  /-- It writes nothing. -/
  | silent
  /-- It writes a packet. -/
  | wrote (reply : List UInt8)
deriving DecidableEq

/-- A byte of a packet; no result depends on the bytes past its end. -/
def byte (p : List UInt8) (i : Nat) : UInt8 := p.getD i 0

/-- `n` bytes of a packet from an offset on. -/
def slice (p : List UInt8) (offset n : Nat) : List UInt8 := (p.drop offset).take n

/-- A field of two bytes in network order. -/
def ntohs (p : List UInt8) (i : Nat) : Nat := word .big (byte p i) (byte p (i + 1))

/-- `iphdr.ihl`. -/
def ihl (p : List UInt8) : Nat := (byte p 0).toNat % 16

/-- `iphdr.version`. -/
def version (p : List UInt8) : Nat := (byte p 0).toNat / 16

/-- `iphdr.protocol`. -/
def protocol (p : List UInt8) : Nat := (byte p 9).toNat

/-- `iphdr_len`. -/
def iphdrLen (p : List UInt8) : Nat := ihl p * 4

/-- The sum of `in_checksum` after its carries are added once. -/
def foldOnce (sum : Nat) : Nat := sum % 0x10000 + sum / 0x10000

/-- `in_checksum`; `none` when an assertion fails. -/
def inChecksum (e : Endian) (buf : List UInt8) : Option Nat :=
  if buf.length % 2 = 0 then
    let sum := foldOnce (sumWords e buf)
    if sum ≤ 0xFFFF then some (0xFFFF - sum) else none
  else none

/-- The checks of `main`; `none` when an assertion of `in_checksum` fails. -/
def accepts (e : Endian) (p : List UInt8) : Option Bool :=
  if 20 ≤ p.length ∧ version p = 4 ∧ 20 ≤ iphdrLen p ∧ iphdrLen p ≤ p.length ∧
      ntohs p 2 = p.length % 0x10000 then
    (inChecksum e (p.take (iphdrLen p))).map fun checksum => checksum == 0
  else some false

/-- What the loop of a `main` does with a packet that was read, where these are its `icmp_input` and
`tcp_input`. -/
def received (e : Endian) (icmp tcp : List UInt8 → Outcome) (p : List UInt8) : Outcome :=
  match accepts e p with
  | none => .aborted
  | some accepted =>
    if accepted then
      if protocol p = 1 then icmp p
      else if protocol p = 6 then tcp p
      else .silent
    else .silent

/-- An ICMP packet that is accepted is for `icmp_input`. -/
theorem received_icmp {e : Endian} {icmp tcp : List UInt8 → Outcome} {p : List UInt8}
    (accepted : accepts e p = some true) (isIcmp : protocol p = 1) :
    received e icmp tcp p = icmp p := by
  simp only [received, accepted, if_true, isIcmp]

/-- A TCP packet that is accepted is for `tcp_input`. -/
theorem received_tcp {e : Endian} {icmp tcp : List UInt8 → Outcome} {p : List UInt8}
    (accepted : accepts e p = some true) (isTcp : protocol p = 6) :
    received e icmp tcp p = tcp p := by
  simp only [received, accepted, if_true, isTcp, if_neg (show ¬ 6 = 1 by decide)]

/-! ## Headers -/

section Headers

variable {e : Endian} {p buf : List UInt8} {sum value : Nat}

/-- What `main` has checked of a packet that it goes on with. -/
structure Accepted (p : List UInt8) : Prop where
  /-- The version is 4. -/
  version : version p = 4
  /-- The header has its fixed part. -/
  low : 20 ≤ iphdrLen p
  /-- The header is in the packet. -/
  high : iphdrLen p ≤ p.length
  /-- The checksum of the header verifies. -/
  verifies : Verifies (p.take (iphdrLen p))

/-- The value of `in_checksum` is the complement of the sum. -/
theorem inChecksum_eq_some :
    inChecksum e buf = some value ↔ buf.length % 2 = 0 ∧ foldOnce (sumWords e buf) ≤ 0xFFFF ∧
      value = 0xFFFF - foldOnce (sumWords e buf) := by
  unfold inChecksum
  by_cases even : buf.length % 2 = 0
  · by_cases fits : foldOnce (sumWords e buf) ≤ 0xFFFF
    · simp only [even, fits, if_true, Option.some.injEq, true_and]
      exact eq_comm
    · simp [even, fits]
  · simp [even]

/-- `in_checksum` of an even number of bytes. -/
theorem inChecksum_even (even : buf.length % 2 = 0) :
    inChecksum e buf = if foldOnce (sumWords e buf) ≤ 0xFFFF
      then some (0xFFFF - foldOnce (sumWords e buf)) else none := if_pos even

/-- A sum with the complement of its folded value verifies. -/
theorem verifies_of_complement {bytes : List UInt8} (fits : foldOnce sum ≤ 0xFFFF)
    (total : sumWords e bytes = sum + (0xFFFF - foldOnce sum)) : Verifies bytes := by
  rw [verifies_iff e, total]
  unfold foldOnce at *
  omega

/-- `main` goes on with packets whose header it has checked. -/
theorem accepted_of_accepts (accepted : accepts e p = some true) : Accepted p := by
  unfold accepts at accepted
  split at accepted
  · rename_i checks
    obtain ⟨-, version, low, high, -⟩ := checks
    obtain ⟨checksum, summed, zero⟩ := Option.map_eq_some_iff.mp accepted
    obtain ⟨-, fits, equal⟩ := inChecksum_eq_some.mp summed
    refine ⟨version, low, high, (verifies_iff e _).mpr ?_⟩
    rw [beq_iff_eq] at zero
    rw [zero] at equal
    unfold foldOnce at fits equal
    omega
  · cases accepted

/-- The fixed part of a header ends with the addresses. -/
theorem take_twenty (p : List UInt8) :
    p.take 20 = p.take 12 ++ (slice p 12 4 ++ slice p 16 4) := by
  rw [show 20 = 12 + (4 + 4) from rfl, List.take_add, List.take_add, List.drop_drop]
  rfl

end Headers

end CodeLearning.Tun
