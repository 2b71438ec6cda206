import CarrotOS.Lib.Ring
import CarrotOS.Time

/-!
# Sockets (`core/network/network.h`)

The kernel keeps every Internet socket in one table of pointers. A socket is a `net_tuple`, the
address of a flow with the indices of its receive queue, extended for TCP by the sequence
numbers; the blocks behind the structure hold the receive queue and one unacknowledged payload.
-/

namespace CarrotOS

open RingQueue

inductive NetState where
  | closed | listen | synSent | synReceived | established | finWait1 | finWait2 | closeWait
  | closing | lastAck | timeWait
  deriving DecidableEq, Repr, Inhabited

inductive Protocol where
  | none | icmp | tcp | udp
  deriving DecidableEq, Repr, Inhabited

/-- `struct net_tuple`. Of the word `recv_wait_flag` only the address is used, as the name on
which readers sleep; its value is one of the bytes that are copied and compared only. -/
structure NetTuple where
  localIpH : ℕ
  -- in a table entry, 0 stands for any address or any remote port
  localIpL : ℕ
  remoteIpH : ℕ
  remoteIpL : ℕ
  localPort : ℕ
  remotePort : ℕ
  protocol : Protocol
  version : ℕ
  state : NetState
  lastUpdatedTimeUs : Timeval
  xid : ℕ
  -- indices of the receive queue
  head : ℕ
  tail : ℕ
  receiveBlocking : Bool
  -- the wait flag and the padding
  rest : ℕ
  deriving DecidableEq, Inhabited

structure NetTupleTcp extends NetTuple where
  -- an 8-bit and a 16-bit word
  sendRetryCount : ℕ
  sendPayloadLen : ℕ
  ackEstBlocked : Bool
  -- 64-bit words, although the wire carries 32 bits of them
  seqLocal : ℕ
  seqRemote : ℕ
  backlog : ℕ
  listenId : ℕ
  -- the two wait flags and the padding
  restTcp : ℕ
  deriving DecidableEq, Inhabited

/-- A socket: the structure, and the bytes of its blocks from the end of the structure on. -/
structure Sock extends NetTupleTcp where
  -- the byte `sizeof(struct net_tuple_tcp) + k` of the blocks, by `k`
  area : ℕ → UInt8
  deriving Inhabited

def sizeofNetTuple : ℕ := 104

def offsetofState : ℕ := 44

def sizeofNetTupleTcp : ℕ := 160

def socketBlockCount : ℕ := 5

def tcpAdditionalSocketBlockCount : ℕ := 1

def recvBufferSize : ℕ := 4096 * socketBlockCount - sizeofNetTupleTcp

/-- Size of the queue of a listening socket, which also covers the block of the payload. -/
def backlogBufferSize : ℕ :=
  4096 * (socketBlockCount + tcpAdditionalSocketBlockCount) - sizeofNetTupleTcp

/-- Position in `area` of the payload that waits for its acknowledgement. -/
def payloadOffset : ℕ := 4096 * socketBlockCount - sizeofNetTupleTcp

def tcpMtu : ℕ := 1500

namespace Sock

/-- The receive queue, or the queue of a listener: the same bytes and indices, used with two
sizes. -/
def ring (s : Sock) : RingBuf UInt8 :=
  ⟨s.area, s.tail, s.head⟩

def setRing (s : Sock) (q : RingBuf UInt8) : Sock :=
  { s with area := q.buf, tail := q.tail, head := q.head }

@[simp] theorem ring_setRing (s : Sock) (q : RingBuf UInt8) : (s.setRing q).ring = q := rfl

def payload (s : Sock) : List UInt8 :=
  (List.range s.sendPayloadLen).map fun k => s.area (payloadOffset + k)

end Sock

/-- `net_tuple_match_v4` of a packet's tuple with an entry of a table: a zero field of the entry
matches anything. The test for equal pointers of the source does not arise, the packet's tuple
being a local variable. -/
def netTupleMatchV4 (src : NetTuple) : Option NetTuple → Bool
  | none => false
  | some target =>
    src.protocol == target.protocol &&
    (src.localIpL == target.localIpL || target.localIpL == 0) &&
    src.localPort == target.localPort &&
    (src.remoteIpL == target.remoteIpL || target.remoteIpL == 0) &&
    (src.remotePort == target.remotePort || target.remotePort == 0) &&
    src.version == target.version

def netTupleEqualV4 (src : NetTuple) : Option NetTuple → Bool
  | none => false
  | some target =>
    -- the state tested is the packet's, which no caller sets, and not the socket's
    src.state != .listen &&
    src.protocol == target.protocol &&
    src.localIpL == target.localIpL &&
    src.localPort == target.localPort &&
    src.remoteIpL == target.remoteIpL &&
    src.remotePort == target.remotePort &&
    src.version == target.version

end CarrotOS
