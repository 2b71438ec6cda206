import CarrotOS.Lib.Bytes
import CarrotOS.Net.State

/-!
# Sending TCP segments (`core/network/af_inet/tcp.h`)

Each send routine builds a header from the socket, hands the packet to `nic_send_ipv4` and
updates the socket, in an order and with a reading of the result of its own.
-/

namespace CarrotOS

open Word Bytes

def tcpFin : ℕ := 0x01

def tcpSyn : ℕ := 0x02

def tcpAck : ℕ := 0x10

def hasFlag (flags flag : ℕ) : Bool :=
  flags &&& flag != 0

/-! ## Headers and checksums -/

def htons (x : ℕ) : ℕ :=
  byteSwap 2 x

def be16 (x : ℕ) : List UInt8 :=
  [leByte x 1, leByte x 0]

def TcpHdr.bytes (h : TcpHdr) : List UInt8 :=
  be16 h.srcPort ++ be16 h.dstPort ++ be16 (h.seq >>> 16) ++ be16 h.seq ++
    be16 (h.ackSeq >>> 16) ++ be16 h.ackSeq ++
    [UInt8.ofNat h.dataOffsetReserved, UInt8.ofNat h.flags] ++ be16 h.window ++
    be16 (htons h.checksum) ++ be16 h.urgentPtr

/-- The sum of the big-endian 16-bit words of a byte string, a last odd byte padded with 0. -/
def wordSum : List UInt8 → ℕ
  | a :: b :: rest => (a.toNat <<< 8 ||| b.toNat) + wordSum rest
  | [a] => a.toNat <<< 8
  | [] => 0

/-- `while (sum >> 16) sum = (sum & 0xFFFF) + (sum >> 16)`. -/
def foldCarries (sum : ℕ) : ℕ :=
  if sum < 2 ^ 16 then sum else foldCarries (sum % 2 ^ 16 + sum / 2 ^ 16)
termination_by sum
decreasing_by omega

def tcpChecksum (hdr : TcpHdr) (srcIp dstIp : ℕ) (payload : List UInt8) : ℕ :=
  let pseudo := u16 (srcIp >>> 16) + u16 srcIp + u16 (dstIp >>> 16) + u16 dstIp + 6 +
    u16 (20 + payload.length)
  let sum := foldCarries (u32 (pseudo + wordSum hdr.bytes + wordSum payload))
  htons (u16 (2 ^ 32 - 1 - sum))

/-- The header that every send routine builds, with its checksum. The ports are passed because
`tcp_send_syn` reads the local port before it sets it. -/
def tcpPacket (s : Sock) (srcPort seq ackSeq flags : ℕ) (payload : List UInt8) : Packet :=
  let hdr : TcpHdr :=
    { srcPort := u16 srcPort, dstPort := u16 s.remotePort, seq := u32 seq, ackSeq := u32 ackSeq
      dataOffsetReserved := 5 <<< 4, flags, window := 65535, checksum := 0, urgentPtr := 0 }
  { srcIp := u32 s.localIpL, dstIp := u32 s.remoteIpL
    hdr := { hdr with
      checksum := tcpChecksum hdr (u32 s.localIpL) (u32 s.remoteIpL) payload }
    payload }

/-- `nic_send_ipv4`: 0 and the packet is on the wire, or `-EAGAIN` and nothing is sent. -/
def nicSendIpv4 (env : Env) (net : Net) (id : ℕ) (p : Packet) : Net × ℤ :=
  if env.resolved p.srcIp p.dstIp then ({ net with sent := net.sent ++ [⟨id, p⟩] }, 0)
  else (net, -eAgain)

section NicSend

variable (env : Env) (net : Net) (id : ℕ) (p : Packet)

@[simp] theorem nicSendIpv4_sockets : (nicSendIpv4 env net id p).1.sockets = net.sockets := by
  unfold nicSendIpv4
  split <;> rfl

@[simp] theorem nicSendIpv4_threads : (nicSendIpv4 env net id p).1.threads = net.threads := by
  unfold nicSendIpv4
  split <;> rfl

@[simp] theorem nicSendIpv4_listens : (nicSendIpv4 env net id p).1.listens = net.listens := by
  unfold nicSendIpv4
  split <;> rfl

@[simp] theorem nicSendIpv4_fds : (nicSendIpv4 env net id p).1.fds = net.fds := by
  unfold nicSendIpv4
  split <;> rfl

variable {env net id p} in
theorem nicSendIpv4_of_resolved (h : env.resolved p.srcIp p.dstIp = true) :
    nicSendIpv4 env net id p = ({ net with sent := net.sent ++ [⟨id, p⟩] }, 0) :=
  if_pos h

variable {env net id p} in
theorem nicSendIpv4_of_not_resolved (h : ¬ env.resolved p.srcIp p.dstIp = true) :
    nicSendIpv4 env net id p = (net, -(eAgain : ℤ)) :=
  if_neg h

theorem nicSendIpv4_sent : (nicSendIpv4 env net id p).1.sent =
    net.sent ++ if env.resolved p.srcIp p.dstIp then [⟨id, p⟩] else [] := by
  unfold nicSendIpv4
  split <;> simp

end NicSend

/-! ## Control segments -/

/-- The assignment of the current time to `last_updated_time_us`. -/
def touch (env : Env) (net : Net) (id : ℕ) : Net :=
  net.modifySock id fun s => { s with lastUpdatedTimeUs := env.now }

/-- `tcp_send_ack`, always called with no payload. -/
def tcpSendAck (env : Env) (net : Net) (id : ℕ) : Net :=
  match net.sockets id with
  | none => net
  | some s =>
    let (net, _) := nicSendIpv4 env net id
      (tcpPacket s s.localPort s.seqLocal s.seqRemote tcpAck [])
    touch env net id

theorem tcpSendAck_sockets (env : Env) (net : Net) (id : ℕ) :
    (tcpSendAck env net id).sockets = (touch env net id).sockets := by
  unfold tcpSendAck
  split
  · rename_i hs
    rw [touch, Net.modifySock, hs, Option.map_none, ← hs, Function.update_eq_self]
  · simp [touch, Net.modifySock]

/-- `tcp_send_synack`, always called with no payload. The result of the transmission is
ignored. -/
def tcpSendSynack (env : Env) (net : Net) (id remoteAckLe : ℕ) : Net :=
  match net.sockets id with
  | none => net
  | some s =>
    let ack := u32 (remoteAckLe + 1)
    let (net, _) := nicSendIpv4 env net id
      (tcpPacket s s.localPort s.seqLocal ack (tcpSyn ||| tcpAck) [])
    net.modifySock id fun s => { s with seqRemote := ack, seqLocal := u64 (s.seqLocal + 1) }

def portInUse (net : Net) (ip port : ℕ) (protocol : Protocol) : Bool :=
  (List.range 4096).any fun i =>
    match net.sockets i with
    | none => false
    | some t =>
      t.protocol == protocol && t.localPort == port && (t.localIpL == ip || t.localIpL == 0)

/-- The increment of `next_ephemeral_port`. It is a 16-bit word, so the test against
`HIGH_PORT_END` never holds. -/
def advancePort (net : Net) : Net :=
  let next := u16 (net.nextEphemeralPort + 1)
  { net with nextEphemeralPort := if 65535 < next then 49152 else next }

/-- The loop of `allocate_random_high_port`, with the number of iterations to go. -/
def allocatePortLoop (net : Net) (protocol : Protocol) : ℕ → Net × ℕ
  | 0 => (net, 0)
  | rest + 1 =>
    if portInUse (advancePort net) 0 net.nextEphemeralPort protocol then
      allocatePortLoop (advancePort net) protocol rest
    else (advancePort net, net.nextEphemeralPort)

def allocateRandomHighPort (net : Net) (protocol : Protocol) : Net × ℕ :=
  allocatePortLoop net protocol (65535 - 49152)

/-- The initial sequence number, chosen by `tcp_send_syn` when the socket has none. -/
def chooseIsn (net : Net) (id : ℕ) : Net :=
  match net.sockets id with
  | none => net
  | some s =>
    if s.seqLocal = 0 then
      let isn := u32 (net.nextIsn + 1)
      { net with nextIsn := isn }.modifySock id fun s => { s with seqLocal := isn }
    else net

/-- The local address, set by `tcp_send_syn` when the socket has none. -/
def chooseLocalIp (env : Env) (net : Net) (id : ℕ) : Net :=
  net.modifySock id fun s =>
    { s with localIpL := if s.localIpL = 0 then env.nicIp else s.localIpL }

/-- The local port, chosen by `tcp_send_syn` when the socket has none. -/
def chooseLocalPort (net : Net) (id : ℕ) : Net :=
  match net.sockets id with
  | none => net
  | some s =>
    if s.localPort = 0 then
      let (net, port) := allocateRandomHighPort net .udp
      net.modifySock id fun s => { s with localPort := port }
    else net

def tcpSendSyn (env : Env) (net : Net) (id : ℕ) : Net × ℤ :=
  match net.sockets id with
  | none => (net, -eInval)
  | some s₀ =>
    if s₀.version = 0 then (net, -eInval)
    else
      let net := chooseLocalPort (chooseLocalIp env (chooseIsn net id) id) id
      match net.sockets id with
      | none => (net, -eInval)
      | some s =>
        -- the source port of the header is read before the port is chosen
        let (net, sent) := nicSendIpv4 env net id
          (tcpPacket s s₀.localPort s.seqLocal 0 tcpSyn [])
        if sent < 0 then (net, sent)
        else
          (net.modifySock id fun s =>
            { s with
              seqLocal := u64 (s.seqLocal + 1)
              state := .synSent
              lastUpdatedTimeUs := env.now }, 0)

/-- The result of a call read as a C `bool`: everything but 0 is true. -/
def cBool (x : ℤ) : Bool :=
  x != 0

def tcpSendFin (env : Env) (net : Net) (id : ℕ) : Net × Bool :=
  match net.sockets id with
  | none => (net, false)
  | some s =>
    if s.version = 0 then (net, false)
    else if s.state ≠ .established ∧ s.state ≠ .closeWait then (net, false)
    else
      let (net, sent) := nicSendIpv4 env net id
        (tcpPacket s s.localPort s.seqLocal s.seqRemote (tcpFin ||| tcpAck) [])
      -- `bool sent = nic_send_ipv4(..)`: success is 0, hence false
      if !cBool sent then (net, false)
      else
        (net.modifySock id fun s =>
          { s with
            seqLocal := u64 (s.seqLocal + 1)
            state := if s.state = .established then .finWait1 else .lastAck
            sendRetryCount := 0
            lastUpdatedTimeUs := env.now }, true)

/-! ## Payload -/

/-- `tcp_send_established`, through `nic_send_tcp_package`: transmit the payload kept in the
socket. -/
def tcpSendEstablished (env : Env) (net : Net) (id : ℕ) : Net :=
  match net.sockets id with
  | none => net
  | some s =>
    let flags := if s.sendPayloadLen = 0 then 0x10 else 0x18
    let p := tcpPacket s s.localPort s.seqLocal s.seqRemote flags s.payload
    (nicSendIpv4 env (touch env net id) id p).1

/-- `memcpy` of the first `len` bytes of `payload` into the payload block. -/
def Sock.storePayload (s : Sock) (payload : ℕ → UInt8) (len : ℕ) : Sock :=
  { s with
    sendRetryCount := 1
    ackEstBlocked := true
    sendPayloadLen := len
    area := Bytes.blit s.area payloadOffset len payload }

/-- `tcp_copy_payload_and_send_established` from the point after its sleep. -/
def tcpSendResume (env : Env) (net : Net) (id : ℕ) (payload : ℕ → UInt8) (payloadLen : ℕ) :
    Net × ℕ :=
  match net.sockets id with
  | none => (net, errno eNotSock)
  | some s =>
    if s.state ≠ .established then (net, errno eNotSock)
    else
      let len := if tcpMtu < payloadLen then tcpMtu else payloadLen
      let net := net.modifySock id fun s => s.storePayload payload len
      (tcpSendEstablished env net id, len)

/-- `tcp_copy_payload_and_send_established`, called by the thread `tid`: `none` when it sleeps. -/
def tcpSendEnter (env : Env) (net : Net) (tid id : ℕ) (payload : ℕ → UInt8) (payloadLen : ℕ) :
    Net × Option ℕ :=
  match net.sockets id with
  | none => (net, some (errno eNotSock))
  | some s =>
    if s.ackEstBlocked then
      (sleepByResource net tid (.send id) (.send id payload payloadLen), none)
    else
      let (net, r) := tcpSendResume env net id payload payloadLen
      (net, some r)

end CarrotOS
