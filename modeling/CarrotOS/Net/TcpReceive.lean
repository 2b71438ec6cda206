import CarrotOS.Net.Queue
import CarrotOS.Net.TcpSend

/-!
# Receiving TCP segments (`core/network/af_inet/tcp.h`)

`handle_tcp_v4` decodes a frame, finds the socket it is for, and acts on the state of that socket.
Its two lookups compare with a local tuple whose `state` it never sets. A call that reads or writes
through a null or out-of-table pointer has no result.
-/

namespace CarrotOS

open Word Bytes

variable {env : Env} {net : Net} {id : ℕ}

/-! ## Decoding -/

/-- A received frame: the receive buffer and the number of bytes received. -/
structure Frame where
  buf : ℕ → UInt8
  bufLen : ℕ

/-- The fields that `handle_tcp_v4` reads from a frame, in host order. -/
structure Segment where
  srcIp : ℕ
  dstIp : ℕ
  srcPort : ℕ
  dstPort : ℕ
  seq : ℕ
  ackSeq : ℕ
  flags : ℕ
  payload : ℕ → UInt8
  payloadLen : ℕ

/-- The beginning of `handle_tcp_v4`. The TCP header is taken to follow a 20-byte IP header, the
payload to follow an IP header of the length given in it. -/
def decodeSegment (f : Frame) : Segment :=
  let ipHeaderLen := ((f.buf 14).toNat % 16) * 4
  let tcpHeaderLen := ((f.buf 46).toNat / 16) * 4
  { srcIp := readBe f.buf 26 4
    dstIp := readBe f.buf 30 4
    srcPort := readBe f.buf 34 2
    dstPort := readBe f.buf 36 2
    seq := readBe f.buf 38 4
    ackSeq := readBe f.buf 42 4
    flags := (f.buf 47).toNat
    payload := fun k => f.buf (14 + ipHeaderLen + tcpHeaderLen + k)
    -- the length is cut to 16 bits, also when the headers are longer than the frame
    payloadLen := u16 (f.bufLen + 2 ^ 64 - 14 - ipHeaderLen - tcpHeaderLen) }

/-- The local `tmp` of `handle_tcp_v4`: what it sets, over what was there. -/
def Segment.tupleTcp (env : Env) (seg : Segment) : NetTupleTcp :=
  { env.tmpTcp with
    localIpH := 0
    localIpL := seg.dstIp
    localPort := seg.dstPort
    protocol := .tcp
    remoteIpH := 0
    remoteIpL := seg.srcIp
    remotePort := seg.srcPort
    version := 4 }

/-- The local `tmp` of `handle_tcp_established_packet`. -/
def Segment.tuple (env : Env) (seg : Segment) : NetTuple :=
  { env.tmp with
    localIpH := 0
    localIpL := seg.dstIp
    remoteIpH := 0
    remoteIpL := seg.srcIp
    remotePort := seg.srcPort
    localPort := seg.dstPort
    protocol := .tcp
    version := 4 }

/-! ## Queues -/

def pushBacklog (net : Net) (childSockid listenerId : ℕ) : Option (Net × ℕ) :=
  match net.sockets listenerId with
  | none => none
  | some lis =>
    let r := pushId backlogBufferSize lis.ring childSockid
    some (net.modifySock listenerId fun s => s.setRing r.1, r.2)

def pullBacklog (net : Net) (listenerId : ℕ) : Option (Net × ℕ) :=
  match net.sockets listenerId with
  | none => none
  | some lis =>
    let r := pullId backlogBufferSize lis.ring
    some (net.modifySock listenerId fun s => s.setRing r.1, r.2)

def recvSocketAppendTcp (net : Net) (id : ℕ) (payload : ℕ → UInt8) (payloadLen : ℕ) : Net :=
  net.modifySock id fun s =>
    s.setRing (fifoWrite8 recvBufferSize s.ring payloadLen payload).ring

/-! ## Payload and acknowledgements -/

/-- `handle_tcp_established_packet`, with the lookup by its own `tmp`. -/
def handleTcpEstablishedPacket (env : Env) (net : Net) (seg : Segment) : Net :=
  match findSocketNotListen net (seg.tuple env) with
  | none => net
  | some id =>
    let net := net.modifySock id fun s =>
      { s with seqRemote := u64 (s.seqRemote + seg.payloadLen) }
    -- the number of bytes stored is not looked at
    let net := recvSocketAppendTcp net id seg.payload seg.payloadLen
    wakeAll (tcpSendAck env net id) (.recv id)

/-- `handle_tcp_receive_ack_established`, with its result. -/
def handleTcpReceiveAckEstablished (net : Net) (id ackSeq : ℕ) : Net × Bool :=
  match net.sockets id with
  | none => (net, false)
  | some s =>
    if s.state ≠ .established ∨ !s.ackEstBlocked then (net, false)
    else if u64 (s.seqLocal + s.sendPayloadLen) ≠ ackSeq then (net, false)
    else
      let net := net.modifySock id fun s =>
        { s with seqLocal := u64 (s.seqLocal + s.sendPayloadLen), ackEstBlocked := false }
      (wakeAll net (.send id), true)

/-! ## The state machine -/

section StateMachine

variable (env : Env) (net : Net) (seg : Segment) (id : ℕ)

/-- The two lookups of `handle_tcp_v4`. -/
def lookupSocket : Option ℕ :=
  match findSocketNotListen net (seg.tupleTcp env).toNetTuple with
  | some id => some id
  | none => findSocket net (seg.tupleTcp env).toNetTuple

/-- The creation of a child socket by a SYN for a listener. -/
def createChild (listenId : ℕ) : Option Net :=
  let (net, id) := createSocketTcp env net (seg.tupleTcp env)
  -- an index outside the table stands for a duplicate or for a full table
  if id < maxSocketsCount then
    let net := net.modifySock id fun s => { s with listenId, state := .synReceived }
    some (touch env (tcpSendSynack env net id seg.seq) id)
  else none

def onListen : Option Net :=
  if hasFlag seg.flags tcpSyn then
    match findListen net (seg.tupleTcp env).toNetTuple with
    | none => some net
    | some listenId =>
      match findSocketNotListen net (seg.tupleTcp env).toNetTuple with
      | some found => some (tcpSendSynack env net found seg.seq)
      | none => createChild env net seg listenId
  else some net

def onSynSent : Net :=
  if hasFlag seg.flags tcpSyn && hasFlag seg.flags tcpAck then
    let net := net.modifySock id fun s => { s with seqRemote := u32 (seg.seq + 1) }
    (tcpSendAck env net id).modifySock id fun s => { s with state := .established }
  else net

def onSynReceived (s : Sock) : Option Net :=
  if hasFlag seg.flags tcpAck then
    match pushBacklog net id s.listenId with
    | none => none
    | some (net, queued) =>
      let net := if queued = 0 then markSocketAsDeleted net id else net
      -- also when nothing was queued
      let net := net.modifySock id fun s => { s with state := .established }
      some (resumeFirstThreadPendingOnListen net s.listenId)
  else some net

def onFin : Net :=
  if hasFlag seg.flags tcpFin then
    let net := net.modifySock id fun s => { s with seqRemote := u64 (s.seqRemote + 1) }
    (tcpSendAck env net id).modifySock id fun s => { s with state := .closeWait }
  else net

def onAck : Net :=
  if hasFlag seg.flags tcpAck then (handleTcpReceiveAckEstablished net id seg.ackSeq).1 else net

/-- Case `NET_STATE_ESTABLISHED`, the payload, to the end of the function. -/
def onPayload : Net :=
  if seg.payloadLen = 0 then touch env net id
  else
    match net.sockets id with
    | none => net
    | some s =>
      if s.seqRemote ≠ 0 ∧ seg.seq ≠ s.seqRemote then net
      else touch env (handleTcpEstablishedPacket env net seg) id

/-- Cases `NET_STATE_FIN_WAIT_1`, `NET_STATE_FIN_WAIT_2`, `NET_STATE_LAST_ACK` and
`NET_STATE_CLOSING`, as functions of the socket. -/
def onClosing (s : Sock) : Sock :=
  match s.state with
  | .finWait1 =>
    if hasFlag seg.flags tcpAck then { s with state := .finWait2 }
    else if hasFlag seg.flags tcpFin then { s with state := .closing }
    else s
  | .finWait2 =>
    if hasFlag seg.flags tcpFin then { s with state := .timeWait, sendRetryCount := 0 }
    else { s with sendRetryCount := 0 }
  | .lastAck => if hasFlag seg.flags tcpAck then { s with state := .closed } else s
  | .closing =>
    if hasFlag seg.flags tcpAck then { s with state := .timeWait, sendRetryCount := 0 }
    else { s with sendRetryCount := 0 }
  | _ => s

/-- The switch of `handle_tcp_v4` on the state of the socket found, to the end of the function. -/
def onSegment (s : Sock) : Option Net :=
  match s.state with
  | .listen => (onListen env net seg).map fun net => touch env net id
  | .synSent => some (touch env (onSynSent env net seg id) id)
  | .synReceived => (onSynReceived net seg id s).map fun net => touch env net id
  | .established => some (onPayload env (onAck (onFin env net seg id) seg id) seg id)
  | _ => some (touch env (net.modifySock id (onClosing seg)) id)

/-- `handle_tcp_v4` after decoding. -/
def handleSegment : Option Net :=
  match lookupSocket env net seg with
  | none => some net
  | some id =>
    match net.sockets id with
    | none => some net
    | some s => onSegment env net seg id s

def handleTcpV4 (f : Frame) : Option Net :=
  handleSegment env net (decodeSegment f)

end StateMachine

theorem lookupSocket_of_exact {seg : Segment}
    (h : findSocketNotListen net (seg.tupleTcp env).toNetTuple = some id) :
    lookupSocket env net seg = some id := by
  unfold lookupSocket
  rw [h]

theorem handleSegment_of_established {seg : Segment} {s : Sock}
    (hlookup : lookupSocket env net seg = some id) (hs : net.sockets id = some s)
    (hstate : s.state = .established) :
    handleSegment env net seg =
      some (onPayload env (onAck (onFin env net seg id) seg id) seg id) := by
  unfold handleSegment
  rw [hlookup]
  dsimp only
  rw [hs]
  dsimp only
  rw [onSegment, hstate]

/-! ## Reading -/

/-- What a call of `read_socket_tcp` has done: the tables, the bytes stored in the caller's buffer,
and the result unless the thread sleeps. -/
structure ReadStep where
  net : Net
  bytes : List UInt8
  result : Option Bool

/-- `read_socket_tcp` called by the thread `tid`, up to its sleep. -/
def readSocketEnter (net : Net) (tid id : ℕ) (payload : ℕ → UInt8) (payloadLen : ℕ) :
    Option ReadStep :=
  match net.sockets id with
  | none => none
  | some s =>
    let r := fifoRead8 recvBufferSize s.ring payloadLen payload
    let net := net.modifySock id fun s => s.setRing r.ring
    if r.outSize ≠ 0 then some ⟨net, cells r.outSize r.out, some true⟩
    else some ⟨sleepByResource net tid (.recv id) (.read id r.out payloadLen), [], none⟩

def readSocketResume (net : Net) (id : ℕ) (payload : ℕ → UInt8) (payloadLen : ℕ) :
    Option ReadStep :=
  match net.sockets id with
  | none => none
  | some s =>
    let r := fifoRead8 recvBufferSize s.ring payloadLen payload
    let net := net.modifySock id fun s => s.setRing r.ring
    some ⟨net, cells r.outSize r.out, some (r.outSize != 0)⟩

/-- A frame without payload for port 3 of the host 1, from port 4 of the host 2. -/
def handshakeFrame (flags : UInt8) : Frame where
  buf := fun k =>
    match k with
    | 14 => 0x45 | 29 => 2 | 33 => 1 | 35 => 4 | 37 => 3
    | 41 => 100 | 46 => 0x50 | 47 => flags
    | _ => 0
  bufLen := 54

end CarrotOS
