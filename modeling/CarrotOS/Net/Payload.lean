import CarrotOS.Net.TcpReceive

/-!
# The payloads of received frames

`handle_tcp_v4` takes the payload to reach to the end of the frame, without a look at the total
length in the IP header: the padding of a short frame is payload. Both handlers read the header of
their protocol behind an IP header of 20 bytes, whatever its length is. `handle_udp_v4` tests the
length of the datagram against the length of the frame, but not that it covers its own header.
-/

namespace CarrotOS

open Word Bytes List Option

/-! ## What is passed on -/

structure UdpPacket where
  srcIp : ℕ
  dstIp : ℕ
  srcPort : ℕ
  dstPort : ℕ
  payload : ℕ → UInt8
  payloadLen : ℕ

/-- `handle_udp_v4`, up to the call of `handle_udp_packet`. -/
def handleUdpV4 (f : Frame) : Option UdpPacket :=
  let udpLen := readBe f.buf 38 2
  if f.bufLen < udpLen + 8 then none
  else some
    { srcIp := readBe f.buf 26 4
      dstIp := readBe f.buf 30 4
      srcPort := readBe f.buf 34 2
      dstPort := readBe f.buf 36 2
      payload := fun k => f.buf (42 + k)
      payloadLen := u64 (udpLen + 2 ^ 64 - 8) }

/-- A part of a frame. -/
structure Span where
  offset : ℕ
  length : ℕ
  deriving DecidableEq

def Frame.bytes (f : Frame) (span : Span) : ℕ → UInt8 := fun k => f.buf (span.offset + k)

def ipHeaderLen (f : Frame) : ℕ := (f.buf 14).toNat % 16 * 4

/-- The place of the payload that `handle_tcp_v4` passes on. -/
def tcpPassed (f : Frame) : Span :=
  ⟨14 + ipHeaderLen f + (f.buf 46).toNat / 16 * 4, (decodeSegment f).payloadLen⟩

def udpPassed (f : Frame) : Option Span :=
  (handleUdpV4 f).map fun p => ⟨42, p.payloadLen⟩

theorem payload_decodeSegment (f : Frame) : (decodeSegment f).payload = f.bytes (tcpPassed f) :=
  rfl

theorem payload_handleUdpV4 {f : Frame} {p : UdpPacket} (h : handleUdpV4 f = some p) :
    udpPassed f = some ⟨42, p.payloadLen⟩ ∧ p.payload = f.bytes ⟨42, p.payloadLen⟩ := by
  refine ⟨by rw [udpPassed, h, map_some], ?_⟩
  obtain ⟨-, h⟩ := ite_none_left_eq_some.mp h
  cases h
  rfl

/-! ## What the headers declare -/

def totalLength (f : Frame) : ℕ := readBe f.buf 16 2

/-- The length that the TCP header behind the IP header gives for itself. -/
def tcpHeaderLen (f : Frame) : ℕ := (f.buf (26 + ipHeaderLen f)).toNat / 16 * 4

/-- The length that the UDP header behind the IP header gives for the datagram. -/
def udpLength (f : Frame) : ℕ := readBe f.buf (18 + ipHeaderLen f) 2

/-- The payload behind headers of the declared lengths, if these are at least the smallest ones and
lie inside each other. -/
def tcpDeclared (f : Frame) : Option Span :=
  if 20 ≤ ipHeaderLen f ∧ 20 ≤ tcpHeaderLen f ∧ ipHeaderLen f + tcpHeaderLen f ≤ totalLength f ∧
      14 + totalLength f ≤ f.bufLen then
    some ⟨14 + ipHeaderLen f + tcpHeaderLen f, totalLength f - ipHeaderLen f - tcpHeaderLen f⟩
  else none

@[inherit_doc tcpDeclared]
def udpDeclared (f : Frame) : Option Span :=
  if 20 ≤ ipHeaderLen f ∧ 8 ≤ udpLength f ∧ ipHeaderLen f + udpLength f ≤ totalLength f ∧
      14 + totalLength f ≤ f.bufLen then
    some ⟨14 + ipHeaderLen f + 8, udpLength f - 8⟩
  else none

/-- The declared payload is passed on, and no byte where there is none. -/
def PassesDeclared (declared passed : Option Span) : Prop :=
  match declared with
  | some span => passed = some span
  | none => ∀ span, passed = some span → span.length = 0

/-- **When the declared payload is passed on.** A TCP frame must not be padded, and the length of
its header must also stand where it would be without IP options; a UDP frame must not have such
options. Frames with inconsistent lengths deliver nothing only if the computed length is 0 or the
test of `handle_udp_v4` fails. -/
theorem passesDeclared_iff (f : Frame) :
    (PassesDeclared (tcpDeclared f) (some (tcpPassed f)) ↔
      if (tcpDeclared f).isSome then (f.buf 46).toNat / 16 * 4 = tcpHeaderLen f ∧
        (f.bufLen - (14 + totalLength f)) % 2 ^ 16 = 0
      else (f.bufLen + 2 ^ 64 - 14 - ipHeaderLen f - (f.buf 46).toNat / 16 * 4) % 2 ^ 16 = 0) ∧
    (PassesDeclared (udpDeclared f) (udpPassed f) ↔
      if (udpDeclared f).isSome then ipHeaderLen f = 20
      else f.bufLen < readBe f.buf 38 2 + 8 ∨ readBe f.buf 38 2 = 8) := by
  have htotal : totalLength f < 256 ^ 2 := readBe_lt _ _ _
  have hlen : (decodeSegment f).payloadLen =
      (f.bufLen + 2 ^ 64 - 14 - ipHeaderLen f - (f.buf 46).toNat / 16 * 4) % 2 ^ 16 := rfl
  have hread := readBe_lt f.buf 38 2
  constructor
  · unfold tcpPassed
    rw [hlen]
    generalize (f.buf 46).toNat / 16 * 4 = d
    unfold tcpDeclared
    by_cases hwf : 20 ≤ ipHeaderLen f ∧ 20 ≤ tcpHeaderLen f ∧
        ipHeaderLen f + tcpHeaderLen f ≤ totalLength f ∧ 14 + totalLength f ≤ f.bufLen
    · rw [if_pos hwf]
      simp only [PassesDeclared, isSome_some, ↓reduceIte, some.injEq, Span.mk.injEq]
      omega
    · rw [if_neg hwf]
      simp [PassesDeclared]
  · have hpassed : udpPassed f = if f.bufLen < readBe f.buf 38 2 + 8 then none
        else some ⟨42, (readBe f.buf 38 2 + 2 ^ 64 - 8) % 2 ^ 64⟩ := by
      unfold udpPassed handleUdpV4
      dsimp only
      split_ifs <;> rfl
    rw [hpassed]
    unfold udpDeclared
    by_cases hwf : 20 ≤ ipHeaderLen f ∧ 8 ≤ udpLength f ∧
        ipHeaderLen f + udpLength f ≤ totalLength f ∧ 14 + totalLength f ≤ f.bufLen
    · rw [if_pos hwf]
      simp only [PassesDeclared, isSome_some, ↓reduceIte]
      by_cases hoptions : ipHeaderLen f = 20
      · -- the length is read where it stands
        have hsame : udpLength f = readBe f.buf 38 2 := by rw [udpLength, hoptions]
        rw [if_neg (by omega)]
        simp only [some.injEq, Span.mk.injEq]
        omega
      · refine iff_of_false (fun h => ?_) hoptions
        obtain ⟨-, h⟩ := ite_none_left_eq_some.mp h
        obtain ⟨hoffset, -⟩ := Span.mk.inj (some.inj h)
        omega
    · rw [if_neg hwf]
      by_cases hshort : f.bufLen < readBe f.buf 38 2 + 8
      · simp [PassesDeclared, hshort]
      · simp only [PassesDeclared, hshort, ↓reduceIte, some.injEq, forall_eq', false_or,
          isSome_none, Bool.false_eq_true]
        omega

/-- The segment of an acknowledgement in a frame that is padded to 60 bytes. -/
def paddedFrame : Frame where
  buf k := if k = 14 then 0x45 else if k = 17 then 40 else if k = 46 then 0x50 else 0
  bufLen := 60

/-- **The padding is passed on.** -/
theorem padding_passed : tcpDeclared paddedFrame = some ⟨54, 0⟩ ∧ tcpPassed paddedFrame = ⟨54, 6⟩ ∧
    ¬PassesDeclared (tcpDeclared paddedFrame) (some (tcpPassed paddedFrame)) := by
  have hdeclared : tcpDeclared paddedFrame = some ⟨54, 0⟩ := by decide
  have hpassed : tcpPassed paddedFrame = ⟨54, 6⟩ := by decide
  refine ⟨hdeclared, hpassed, ?_⟩
  rw [hdeclared, hpassed]
  intro h
  cases h

/-! ## The socket of a datagram -/

/-- The tuple for which `handle_udp_packet` looks: its local address is that of the sender. The
fields that are not set are not compared. -/
def UdpPacket.tuple (p : UdpPacket) (junk : NetTuple) : NetTuple :=
  { junk with
    localIpH := 0, localIpL := p.srcIp, remoteIpH := 0, remoteIpL := p.dstIp
    remotePort := p.srcPort, localPort := p.dstPort, protocol := .udp, version := 4 }

/-- `handle_udp_packet`: the socket to which the payload is appended, and the result. If a listener
is found, `udp_listen_append` gets the index -1, which is outside of the tables. -/
def handleUdpPacket (net : Net) (junk : NetTuple) (p : UdpPacket) : Option ℕ × Bool :=
  let id := findSocket net (p.tuple junk)
  (id, id.isSome || (findListen net (p.tuple junk)).isSome)

/-- The socket is to get the datagram: it is bound to the destination, and connected to the sender
or not at all. -/
def UdpPacket.IsFor (p : UdpPacket) (t : NetTuple) : Prop :=
  t.protocol = .udp ∧ t.localPort = p.dstPort ∧ (t.localIpL = p.dstIp ∨ t.localIpL = 0) ∧
    (t.remoteIpL = p.srcIp ∨ t.remoteIpL = 0) ∧ (t.remotePort = p.srcPort ∨ t.remotePort = 0)

/-- The same with the two addresses exchanged, for a socket of version 4. -/
def UdpPacket.IsForSwapped (p : UdpPacket) (t : NetTuple) : Prop :=
  t.protocol = .udp ∧ t.localPort = p.dstPort ∧ (t.localIpL = p.srcIp ∨ t.localIpL = 0) ∧
    (t.remoteIpL = p.dstIp ∨ t.remoteIpL = 0) ∧ (t.remotePort = p.srcPort ∨ t.remotePort = 0) ∧
    t.version = 4

/-- The sockets of the table with a property. -/
def Net.With (net : Net) (P : NetTuple → Prop) (id : ℕ) : Prop :=
  id < maxSocketsCount ∧ ∃ s, net.sockets id = some s ∧ P s.toNetTuple

/-- The payload is appended to no socket that is not to get it, and to one if there is one. -/
def Demultiplexes (net : Net) (junk : NetTuple) (p : UdpPacket) : Prop :=
  (∀ id, (handleUdpPacket net junk p).1 = some id → net.With p.IsFor id) ∧
    ((∃ id, net.With p.IsFor id) → ∃ id, (handleUdpPacket net junk p).1 = some id)

theorem handleUdpPacket_eq_some {net : Net} {junk : NetTuple} {p : UdpPacket} {id : ℕ} :
    (handleUdpPacket net junk p).1 = some id ↔
      net.With p.IsForSwapped id ∧ ∀ j < id, ¬net.With p.IsForSwapped j := by
  have hmatch : ∀ i, netTupleMatchV4 (p.tuple junk) ((net.sockets i).map fun s => s.toNetTuple) =
      true ↔ ∃ s, net.sockets i = some s ∧ p.IsForSwapped s.toNetTuple := by
    intro i
    cases net.sockets i with
    | none => simp [netTupleMatchV4]
    | some s =>
      simp [netTupleMatchV4, UdpPacket.tuple, UdpPacket.IsForSwapped, @eq_comm _ _ s.localPort]
      grind
  rw [handleUdpPacket, findSocket, find?_range_eq_some]
  simp only [hmatch, mem_range, Bool.not_eq_true', ← Bool.not_eq_true, Net.With]
  grind

/-- **When a datagram gets to its socket**: if the first socket with the exchanged addresses is one
that is to get it, or if there is neither a socket with the exchanged addresses nor one that is to
get it. -/
theorem demultiplexes_iff (net : Net) (junk : NetTuple) (p : UdpPacket) :
    Demultiplexes net junk p ↔
      (∃ id, net.With p.IsForSwapped id ∧ (∀ j < id, ¬net.With p.IsForSwapped j) ∧
        net.With p.IsFor id) ∨
      ∀ id, ¬net.With p.IsForSwapped id ∧ ¬net.With p.IsFor id := by
  have hsome := @handleUdpPacket_eq_some net junk p
  rw [Demultiplexes]
  cases hfound : (handleUdpPacket net junk p).1 with
  | none =>
    rw [hfound] at hsome
    have hnone : ∀ id, ¬net.With p.IsForSwapped id := by
      intro id
      induction id using Nat.strong_induction_on with
      | h id ih => exact fun hid => nomatch hsome.mpr ⟨hid, ih⟩
    simp [hnone]
  | some k =>
    obtain ⟨hk, hfirst⟩ := hsome.mp hfound
    constructor
    · rintro ⟨honly, -⟩
      exact .inl ⟨k, hk, hfirst, honly k rfl⟩
    · rintro (⟨id, hid, hfirst', hfor⟩ | hnone)
      · obtain rfl := some.inj (hfound.symm.trans (hsome.mpr ⟨hid, hfirst'⟩))
        exact ⟨fun _ h => some.inj h ▸ hfor, fun _ => ⟨k, rfl⟩⟩
      · exact absurd hk (hnone k).1

/-- A datagram from 10.0.0.2 for the socket that is bound to port 53 of 10.0.0.1. -/
theorem datagram_not_delivered : ¬Demultiplexes
    (Net.ofSock { (default : Sock) with
      localIpL := 0x0A000001, localPort := 53, protocol := .udp, version := 4 }) default
    ⟨0x0A000002, 0x0A000001, 1000, 53, fun _ => 0, 0⟩ := by
  rintro ⟨-, hsome⟩
  obtain ⟨id, hid⟩ := hsome ⟨0, by decide, _, rfl, rfl, rfl, .inl rfl, .inr rfl, .inr rfl⟩
  obtain ⟨⟨-, s, hs, -, -, haddr, -⟩, -⟩ := handleUdpPacket_eq_some.mp hid
  by_cases hzero : id = 0
  · subst hzero
    cases hs
    exact absurd haddr (by decide)
  · simp [Net.ofSock, hzero] at hs

end CarrotOS
