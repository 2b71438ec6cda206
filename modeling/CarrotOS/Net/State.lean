import CarrotOS.Mem.Fifo
import CarrotOS.Net.Socket
import CarrotOS.Sched.Basic

/-!
# The state of the network stack (`core/network/af_inet/af_inet.h`, `udp.h`)

The tables that the TCP code reads and writes, the searches in them, the creation and the
marking of sockets, and the threads that sleep on a socket. A call reads the clock, random
numbers and the contents of its uninitialised local variables from an `Env`, which is arbitrary.
-/

namespace CarrotOS

open Function Word List Option

/-! ## Threads -/

/-- The words `recv_wait_flag`, `send_wait_flag` and `listen_wait_flag` of a socket, on whose
addresses threads sleep, by the number of the socket. -/
inductive WaitFlag where
  | recv (sockId : ℕ)
  | send (sockId : ℕ)
  | listen (sockId : ℕ)
  deriving DecidableEq, Repr

/-- The rest of `read_socket_tcp`, `tcp_copy_payload_and_send_established` or `sys_accept`, which a
thread has left to do when `sleep_by_resource` returns. -/
inductive Pending where
  | read (sockId : ℕ) (payload : ℕ → UInt8) (payloadLen : ℕ)
  | send (sockId : ℕ) (payload : ℕ → UInt8) (payloadLen : ℕ)
  | accept (sockfd listenId : ℕ)

/-- The part of `thread_info_t` used here, with the rest of the system call that the thread
sleeps in. -/
structure Thread where
  pid : ℕ
  state : ThreadState
  -- `none` for an address that is not a word of a socket
  sleepFlagAddr : Option WaitFlag
  pending : Option Pending

def maxSocketsCount : ℕ := 5120

def maxListensCount : ℕ := 5120

/-- The 64-bit word `-1`, returned for "none". -/
def noId : ℕ := 2 ^ 64 - 1

/-! ## Packets -/

/-- `struct tcp_hdr`, each field by its value in host order (the checksum as it is stored). -/
structure TcpHdr where
  srcPort : ℕ
  dstPort : ℕ
  seq : ℕ
  ackSeq : ℕ
  dataOffsetReserved : ℕ
  flags : ℕ
  window : ℕ
  checksum : ℕ
  urgentPtr : ℕ
  deriving DecidableEq, Repr, Inhabited

/-- A TCP packet handed to the network card. -/
structure Packet where
  srcIp : ℕ
  dstIp : ℕ
  hdr : TcpHdr
  payload : List UInt8
  deriving DecidableEq, Repr, Inhabited

/-- A transmitted packet with the socket it was sent for. -/
structure Sent where
  sockId : ℕ
  packet : Packet
  deriving DecidableEq, Repr, Inhabited

/-! ## Descriptors -/

structure FileMetadata where
  owner : ℕ
  group : ℕ
  mode : ℕ
  size : ℕ
  created : ℕ
  modified : ℕ
  deriving DecidableEq, Repr, Inhabited

/-- `struct file_inner`. The default value is the one whose bytes are all zero. -/
structure FileInner where
  globalId : ℕ
  metadata : FileMetadata
  offset : ℕ
  openFlags : ℕ
  type : FileType
  resId : ℕ
  deriving DecidableEq, Repr, Inhabited

/-! ## The tables -/

/-- The state of the network stack, with the packets transmitted so far. -/
structure Net where
  -- `socket_global` and `listen_global`, numbered independently
  sockets : ℕ → Option Sock
  listens : ℕ → Option NetTuple
  threads : ℕ → Option Thread
  -- the descriptor tables, by process and descriptor
  fds : ℕ → ℕ → FileInner
  nextIsn : ℕ
  nextEphemeralPort : ℕ
  sent : List Sent

/-- What a call finds outside the tables: whether the card knows a hardware address for a
destination, the clock, random numbers, the address of the card, fresh blocks, and the uninitialised
locals `tmp` of `handle_tcp_v4` and `handle_tcp_established_packet`. -/
structure Env where
  resolved : ℕ → ℕ → Bool
  now : Timeval
  rand : ℕ → ℕ
  nicIp : ℕ
  freshArea : ℕ → UInt8
  tmpTcp : NetTupleTcp
  tmp : NetTuple
  -- what a clobbered socket pointer points at
  wild : Sock

def Net.modifySock (net : Net) (id : ℕ) (f : Sock → Sock) : Net :=
  { net with sockets := update net.sockets id ((net.sockets id).map f) }

section ModifySock

variable (net : Net) (id : ℕ) (f : Sock → Sock)

@[simp] theorem modifySock_sockets_self :
    (net.modifySock id f).sockets id = (net.sockets id).map f := by
  simp [Net.modifySock]

theorem modifySock_sockets_of_ne {id' : ℕ} (h : id' ≠ id) :
    (net.modifySock id f).sockets id' = net.sockets id' := by
  simp [Net.modifySock, h]

theorem modifySock_sockets {net : Net} {id : ℕ} {s : Sock} (hs : net.sockets id = some s)
    (f : Sock → Sock) :
    (net.modifySock id f).sockets = update net.sockets id (some (f s)) := by
  rw [Net.modifySock, hs]
  rfl

theorem modifySock_sockets_some {net : Net} {id : ℕ} {s : Sock} (hs : net.sockets id = some s)
    (f : Sock → Sock) : (net.modifySock id f).sockets id = some (f s) := by
  rw [modifySock_sockets_self, hs, map_some]

end ModifySock

/-! ## Projections

What a group of results needs to know of a socket is a function of it, its part, and each routine
is described by what it does to the parts of all sockets. -/

section Proj

variable {β : Type*} {π : Sock → β} {net net' : Net} {id : ℕ}

def Net.proj (π : Sock → β) (net : Net) (id : ℕ) : Option β :=
  (net.sockets id).map π

theorem proj_of_sockets {s : Sock} (h : net.sockets id = some s) :
    net.proj π id = some (π s) := by
  rw [Net.proj, h, map_some]

theorem proj_congr (h : net'.sockets = net.sockets) : net'.proj π = net.proj π := by
  funext k
  rw [Net.proj, Net.proj, h]

theorem proj_update (net : Net) (id : ℕ) (s : Sock) :
    Net.proj π { net with sockets := update net.sockets id (some s) } =
      update (net.proj π) id (some (π s)) := by
  funext k
  by_cases hk : k = id
  · subst hk
    simp only [Net.proj, update_self, map_some]
  · simp only [Net.proj, update_of_ne hk]

theorem proj_modifySock (net : Net) (id : ℕ) {f : Sock → Sock} {g : β → β}
    (hf : ∀ s, π (f s) = g (π s)) :
    (net.modifySock id f).proj π = update (net.proj π) id ((net.proj π id).map g) := by
  funext k
  by_cases hk : k = id
  · subst hk
    simp only [Net.proj, modifySock_sockets_self, update_self, Option.map_map]
    congr 1
    funext s
    exact hf s
  · rw [update_of_ne hk, Net.proj, modifySock_sockets_of_ne _ _ _ hk, Net.proj]

theorem proj_modifySock_some {s : Sock} (hs : net.sockets id = some s) (f : Sock → Sock) :
    (net.modifySock id f).proj π = update (net.proj π) id (some (π (f s))) := by
  funext k
  by_cases hk : k = id
  · subst hk
    rw [proj_of_sockets (modifySock_sockets_some hs f), update_self]
  · rw [update_of_ne hk, Net.proj, modifySock_sockets_of_ne _ _ _ hk, Net.proj]

theorem proj_modifySock_of_update {V : ℕ → Option β} {v : β}
    (h : net.proj π = update V id (some v)) {f : Sock → Sock} {g : β → β}
    (hf : ∀ s, π (f s) = g (π s)) :
    (net.modifySock id f).proj π = update V id (some (g v)) := by
  rw [proj_modifySock net id hf, h, update_self, update_idem, map_some]

theorem proj_modifySock_of_eq (net : Net) (id : ℕ) {f : Sock → Sock}
    (hf : ∀ s, π (f s) = π s) : (net.modifySock id f).proj π = net.proj π := by
  rw [proj_modifySock net id (g := fun v => v) hf]
  simp

end Proj

/-! ## Searches -/

def findSocket (net : Net) (tuple : NetTuple) : Option ℕ :=
  (range maxSocketsCount).find? fun i =>
    netTupleMatchV4 tuple ((net.sockets i).map fun s => s.toNetTuple)

def findSocketNotListen (net : Net) (tuple : NetTuple) : Option ℕ :=
  (range maxSocketsCount).find? fun i =>
    netTupleEqualV4 tuple ((net.sockets i).map fun s => s.toNetTuple)

/-- `find_listen`: the answer is an index of the listen table. -/
def findListen (net : Net) (tuple : NetTuple) : Option ℕ :=
  (range maxSocketsCount).find? fun i =>
    match net.listens i with
    | none => false
    | some t => t.state == .listen && netTupleMatchV4 tuple (some t)

section Searches

variable {net : Net} {id : ℕ} {src : NetTuple}

theorem netTupleMatchV4_of_equal {o : Option NetTuple}
    (h : netTupleEqualV4 src o = true) : netTupleMatchV4 src o = true := by
  cases o with
  | none => exact h
  | some t =>
    simp only [netTupleEqualV4, Bool.and_eq_true] at h
    simp only [netTupleMatchV4, Bool.and_eq_true, Bool.or_eq_true]
    tauto

theorem exists_of_find (p : Option NetTuple → Bool) (hnone : p none = false)
    (h : ((range maxSocketsCount).find? fun i =>
      p ((net.sockets i).map fun s => s.toNetTuple)) = some id) :
    ∃ s, net.sockets id = some s ∧ p (some s.toNetTuple) = true := by
  have hp := find?_some h
  cases hs : net.sockets id with
  | none =>
    rw [hs, map_none, hnone] at hp
    cases hp
  | some s =>
    rw [hs] at hp
    exact ⟨s, rfl, hp⟩

theorem findSocket_spec (h : findSocket net src = some id) :
    ∃ s, net.sockets id = some s ∧ netTupleMatchV4 src (some s.toNetTuple) = true := by
  unfold findSocket at h
  exact exists_of_find (netTupleMatchV4 src) rfl h

theorem findSocketNotListen_spec (h : findSocketNotListen net src = some id) :
    ∃ s, net.sockets id = some s ∧ netTupleEqualV4 src (some s.toNetTuple) = true := by
  unfold findSocketNotListen at h
  exact exists_of_find (netTupleEqualV4 src) rfl h

theorem find_range_zero {n : ℕ} {p : ℕ → Bool} (hn : 0 < n) (hp : p 0 = true) :
    (range n).find? p = some 0 := by
  obtain ⟨m, rfl⟩ := Nat.exists_eq_succ_of_ne_zero hn.ne'
  rw [range_succ_eq_map, find?_cons_of_pos hp]

end Searches

/-! ## Creation and deletion -/

/-- `create_listen`: the index of the new entry, `noId` for a duplicate, and
`MAX_LISTENS_COUNT / 8` when the part of the table that is searched is full. -/
def createListen (net : Net) (tuple : NetTuple) : Net × ℕ :=
  if (range maxListensCount).any fun i => net.listens i == some tuple then
    (net, noId)
  else
    match (range (maxListensCount / 8)).find? fun i => (net.listens i).isNone with
    | none => (net, maxListensCount / 8)
    | some i => ({ net with listens := update net.listens i (some tuple) }, i)

/-- `rand_range`, from the random number it draws. -/
def randRange (min max r : ℕ) : ℕ :=
  if max ≤ min then min else u64 (min + r % u64 (max - min + 1))

/-- The fields that `create_socket_tcp` sets over the caller's structure. -/
def newTcpTuple (env : Env) (orig : NetTupleTcp) : NetTupleTcp :=
  { orig with
    state := .closed
    protocol := .tcp
    version := 4
    head := 0
    tail := 0
    receiveBlocking := true
    seqLocal := u64 (1000000000 * randRange 1 3 (env.rand 0) + randRange 1 2000000000 (env.rand 1))
    ackEstBlocked := false }

/-- `create_socket_tcp`: the index of the new socket, `noId` for a duplicate, and
`MAX_SOCKETS_COUNT` when the table is full. -/
def createSocketTcp (env : Env) (net : Net) (orig : NetTupleTcp) : Net × ℕ :=
  if (range maxSocketsCount).any fun i =>
      (net.sockets i).map (fun s => s.toNetTupleTcp) == some orig then
    (net, noId)
  else
    match (range maxSocketsCount).find? fun i => (net.sockets i).isNone with
    | none => (net, maxSocketsCount)
    | some i =>
      ({ net with
          sockets := update net.sockets i
            (some { toNetTupleTcp := newTcpTuple env orig, area := env.freshArea }) }, i)

theorem createSocketTcp_spec {env : Env} {net net' : Net} {orig : NetTupleTcp} {i : ℕ}
    (h : createSocketTcp env net orig = (net', i)) (hi : i < maxSocketsCount) :
    net.sockets i = none ∧
      net' = { net with
        sockets := update net.sockets i
          (some { toNetTupleTcp := newTcpTuple env orig, area := env.freshArea }) } := by
  unfold createSocketTcp at h
  split at h
  · cases h
    simp [noId, maxSocketsCount] at hi
  · split at h
    · cases h
      exact absurd hi (lt_irrefl _)
    · rename_i k hk
      cases h
      exact ⟨by simpa using find?_some hk, rfl⟩

/-- `mark_socket_as_deleted`. The assignments that should wake the sleepers are written as
comparisons in the source, so no thread changes. -/
def markSocketAsDeleted (net : Net) (id : ℕ) : Net :=
  net.modifySock id fun s => { s with state := .closeWait }

/-! ## Sleeping and waking -/

def Thread.sleepsOn (flag : WaitFlag) (t : Thread) : Bool :=
  t.state == .blockedNetwork && t.sleepFlagAddr == some flag

def Thread.wake (flag : WaitFlag) (t : Thread) : Thread :=
  if t.sleepsOn flag then { t with state := .ready } else t

/-- The loop over all threads that wakes those sleeping on a word. -/
def wakeAll (net : Net) (flag : WaitFlag) : Net :=
  { net with
    threads := fun i =>
      if i < maxThreadsCount then (net.threads i).map (Thread.wake flag) else net.threads i }

/-- `resume_first_thread_pending_on_listen`. The number it is called with is an index of the
listen table, and is used as an index of the socket table. -/
def resumeFirstThreadPendingOnListen (net : Net) (listenId : ℕ) : Net :=
  match (range maxThreadsCount).find? fun i =>
      ((net.threads i).map (Thread.sleepsOn (.listen listenId))).getD false with
  | none => net
  | some i =>
    { net with
      threads := update net.threads i
        ((net.threads i).map fun t => { t with state := .ready }) }

/-- `sleep_by_resource` of the thread `tid`, up to the point where it is resumed. -/
def sleepByResource (net : Net) (tid : ℕ) (flag : WaitFlag) (rest : Pending) : Net :=
  { net with
    threads := update net.threads tid
      ((net.threads tid).map fun t =>
        { t with state := .blockedNetwork, sleepFlagAddr := some flag, pending := some rest }) }

/-- The thread `tid` runs again with nothing left over. -/
def finishThread (net : Net) (tid : ℕ) : Net :=
  { net with
    threads := update net.threads tid
      ((net.threads tid).map fun t => { t with state := .running, pending := none }) }

/-! ## Small stacks -/

/-- A stack with one socket, which is also descriptor 0 of process 0. -/
def Net.ofSock (s : Sock) : Net where
  sockets := update (fun _ => none) 0 (some s)
  listens := fun _ => none
  threads := fun _ => none
  fds := fun _ fd => if fd = 0 then { (default : FileInner) with type := .socket } else default
  nextIsn := 0x1000
  nextEphemeralPort := 49152
  sent := []

/-- A TCP socket in the given state, with addresses, ports and a sequence number. -/
def sampleSock (state : NetState) : Sock :=
  { (default : Sock) with
    localIpL := 1, remoteIpL := 2, localPort := 3, remotePort := 4, protocol := .tcp, version := 4
    state, seqLocal := 1000 }

/-- An environment in which every destination is resolved. -/
def resolvedEnv : Env where
  resolved := fun _ _ => true
  now := ⟨0, 0⟩
  rand := fun _ => 0
  nicIp := 0
  freshArea := fun _ => 0
  tmpTcp := default
  tmp := default
  wild := default

end CarrotOS
