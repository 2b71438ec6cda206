import CarrotOS.Net.Receive
import CarrotOS.Net.UnixSend

/-!
# Threads that wait for data

`read_socket_tcp` and `read_socket_stream` look into the receive queue of a socket, sleep on its
`recv_wait_flag` if there is nothing, and look again when they are woken. No thread should sleep on
a socket whose queue has data.

The look and the sleep are two steps, and nothing keeps an arrival from coming between them: the
waker finds no sleeper, and the reader then sleeps on a queue that has data. And the waker of a
Unix-domain socket looks for threads that sleep on the `listen_wait_flag`, so that it never wakes a
reader at all.
-/

namespace CarrotOS

open RingQueue Table Transition Option RingBuf

variable {payload : ℕ → UInt8} {id len payloadLen : ℕ}

/-! ## Sockets and threads -/

/-- A socket of one of the two tables, by its number. -/
inductive SockRef where
  | tcp (id : ℕ)
  | unix (id : ℕ)
  deriving DecidableEq, Repr

/-- A word of a socket of one of the two tables. -/
inductive SockFlag where
  | tcp (flag : WaitFlag)
  | unix (flag : WaitFlag)
  deriving DecidableEq, Repr

def SockRef.recvFlag : SockRef → SockFlag
  | .tcp id => .tcp (.recv id)
  | .unix id => .unix (.recv id)

def SockFlag.inTcp : SockFlag → Option WaitFlag
  | .tcp flag => some flag
  | .unix _ => none

def SockFlag.inUnix : SockFlag → Option WaitFlag
  | .tcp _ => none
  | .unix flag => some flag

/-- What a thread has left to do of a read: to go to sleep, or to look again. -/
inductive ReadRest where
  | sleep (sock : SockRef) (payload : ℕ → UInt8) (payloadLen : ℕ)
  | again (sock : SockRef) (payload : ℕ → UInt8) (payloadLen : ℕ)

/-- The part of `thread_info_t` used here, with the rest of the read that the thread is in. -/
structure ReaderThread where
  state : ThreadState
  -- `none` for any other address
  sleepFlagAddr : Option SockFlag
  rest : Option ReadRest

/-- The two tables of sockets and the threads. One thread may read from sockets of both families, so
the threads are kept here, and the functions of a part see them as the part does. -/
structure SockSystem where
  net : Net
  uds : Uds
  threads : ℕ → Option ReaderThread

/-- The size of the receive queue, as `read_socket_tcp` and `read_socket_stream` compute it. -/
def SockRef.size : SockRef → ℕ
  | .tcp _ => recvBufferSize
  | .unix _ => udsStreamSize

def SockRef.blockedState : SockRef → ThreadState
  | .tcp _ => .blockedNetwork
  | .unix _ => .blockedUds

namespace SockSystem

def ringOf (st : SockSystem) : SockRef → Option (RingBuf UInt8)
  | .tcp id => (st.net.sockets id).map Sock.ring
  | .unix id => (st.uds.sockets id).map UdsTupleStream.ring

def setRing (st : SockSystem) (sock : SockRef) (q : RingBuf UInt8) : SockSystem :=
  match sock with
  | .tcp id => { st with net := st.net.modifySock id fun s => s.setRing q }
  | .unix id => { st with uds := st.uds.modifySock id fun s => { s with ring := q } }

def modifyThread (st : SockSystem) (tid : ℕ) (g : ReaderThread → ReaderThread) : SockSystem :=
  { st with threads := modify st.threads tid g }

/-- The tables of the TCP sockets with the threads as they are here. -/
def tcp (st : SockSystem) : Net :=
  { st.net with threads := fun tid => (st.threads tid).map fun t =>
      ⟨0, t.state, t.sleepFlagAddr.bind SockFlag.inTcp, none⟩ }

def unix (st : SockSystem) : Uds :=
  { st.uds with threads := fun tid => (st.threads tid).map fun t =>
      ⟨0, t.state, t.sleepFlagAddr.bind SockFlag.inUnix, none⟩ }

/-- The threads with the states that a part has given them. -/
def withStates (st : SockSystem) (states : ℕ → Option ThreadState) : SockSystem :=
  { st with threads := fun tid => (st.threads tid).map fun t =>
      { t with state := (states tid).getD t.state } }

/-! ## Readers -/

/-- A read up to its sleep: one look into the queue. -/
def readSocket (st : SockSystem) (tid : ℕ) (sock : SockRef) (payload : ℕ → UInt8)
    (payloadLen : ℕ) : Option SockSystem :=
  (st.ringOf sock).map fun q =>
    let r := fifoRead8 sock.size q payloadLen payload
    let st := st.setRing sock r.ring
    if r.outSize ≠ 0 then st
    else st.modifyThread tid fun t => { t with rest := some (.sleep sock r.out payloadLen) }

def readSocketTcp (st : SockSystem) (tid socketId : ℕ) (payload : ℕ → UInt8) (payloadLen : ℕ) :
    Option SockSystem :=
  st.readSocket tid (.tcp socketId) payload payloadLen

def readSocketStream (st : SockSystem) (tid socketId : ℕ) (payload : ℕ → UInt8) (payloadLen : ℕ) :
    Option SockSystem :=
  st.readSocket tid (.unix socketId) payload payloadLen

def sleepByResource (st : SockSystem) (tid : ℕ) (sock : SockRef) (payload : ℕ → UInt8)
    (payloadLen : ℕ) : SockSystem :=
  st.modifyThread tid fun t => { t with
    state := sock.blockedState
    sleepFlagAddr := some sock.recvFlag
    rest := some (.again sock payload payloadLen) }

/-- The second look of a read. -/
def readAgain (st : SockSystem) (tid : ℕ) (sock : SockRef) (payload : ℕ → UInt8)
    (payloadLen : ℕ) : Option SockSystem :=
  (st.ringOf sock).map fun q =>
    (st.setRing sock (fifoRead8 sock.size q payloadLen payload).ring).modifyThread tid
      fun t => { t with state := .running, rest := none }

/-! ## Arrivals -/

/-- `handle_tcp_established_packet`. -/
def tcpPacket (st : SockSystem) (env : Env) (seg : Segment) : SockSystem :=
  let net := handleTcpEstablishedPacket env st.tcp seg
  { st with net }.withStates fun tid => (net.threads tid).map Thread.state

/-- `handle_stream_established_packet`. -/
def streamPacket (st : SockSystem) (socketId : ℕ) (payload : ℕ → UInt8) (payloadLen : ℕ) :
    Option SockSystem :=
  (st.uds.sockets socketId).map fun sock =>
    let uds := st.unix.handleStreamEstablishedPacket sock socketId payload payloadLen
    { st with uds }.withStates fun tid => (uds.threads tid).map UdsThread.state

end SockSystem

/-! ## Steps -/

/-- A step: a thread enters a read, goes to sleep or looks again, or data arrives. -/
inductive ReaderCall where
  | readTcp (tid socketId : ℕ) (payload : ℕ → UInt8) (payloadLen : ℕ)
  | readStream (tid socketId : ℕ) (payload : ℕ → UInt8) (payloadLen : ℕ)
  | sleep (tid : ℕ)
  | resume (tid : ℕ)
  | tcpPacket (env : Env) (seg : Segment)
  | streamPacket (socketId : ℕ) (payload : ℕ → UInt8) (payloadLen : ℕ)

def ReaderThread.free (t : ReaderThread) : Bool :=
  t.state == .running && t.rest.isNone

/-- One step. A thread makes one call at a time, and a thread that sleeps does not run. -/
def ReaderCall.apply (st : SockSystem) : ReaderCall → Option SockSystem
  | .readTcp tid socketId payload payloadLen =>
    if (st.threads tid).any ReaderThread.free then st.readSocketTcp tid socketId payload payloadLen
    else none
  | .readStream tid socketId payload payloadLen =>
    if (st.threads tid).any ReaderThread.free then
      st.readSocketStream tid socketId payload payloadLen
    else none
  | .sleep tid =>
    match st.threads tid with
    | some ⟨.running, _, some (.sleep sock payload payloadLen)⟩ =>
      some (st.sleepByResource tid sock payload payloadLen)
    | _ => none
  | .resume tid =>
    match st.threads tid with
    | some ⟨.ready, _, some (.again sock payload payloadLen)⟩ =>
      st.readAgain tid sock payload payloadLen
    | _ => none
  | .tcpPacket env seg => some (st.tcpPacket env seg)
  | .streamPacket socketId payload payloadLen => st.streamPacket socketId payload payloadLen

def ReaderThread.BlockedOn (t : ReaderThread) (sock : SockRef) : Prop :=
  t.state = sock.blockedState ∧ t.sleepFlagAddr = some sock.recvFlag

instance (t : ReaderThread) (sock : SockRef) : Decidable (t.BlockedOn sock) :=
  inferInstanceAs (Decidable (_ ∧ _))

def NoLostWakeup (st : SockSystem) : Prop :=
  ∀ tid t sock q, st.threads tid = some t → t.BlockedOn sock → st.ringOf sock = some q →
    q.tail = q.head

/-- A state to start from: nobody sleeps on data, the threads are in the table, and the queues of
connected Unix-domain sockets are queues. -/
structure ReaderStart (st : SockSystem) : Prop where
  noLost : NoLostWakeup st
  bound : ∀ tid, maxThreadsCount ≤ tid → st.threads tid = none
  valid : ∀ id s, st.uds.sockets id = some s → s.type = .stream → s.state = .established →
    s.ring.Valid udsStreamSize

/-- A step that keeps the property: a thread goes to sleep while the queue is still empty, and data
for a Unix-domain socket arrives while no reader sleeps on it. -/
def ReaderCall.Harmless (st : SockSystem) : ReaderCall → Prop
  | .sleep tid => ∀ t sock payload payloadLen q, st.threads tid = some t →
      t.rest = some (.sleep sock payload payloadLen) → st.ringOf sock = some q → q.tail = q.head
  | .streamPacket socketId _ payloadLen =>
    (Holds st.uds.sockets socketId fun s => s.type = .stream ∧ s.state = .established) →
      payloadLen ≠ 0 → ∀ tid t, st.threads tid = some t → ¬t.BlockedOn (.unix socketId)
  | .readTcp .. => True
  | .readStream .. => True
  | .resume _ => True
  | .tcpPacket .. => True

/-! ## What the steps keep -/

section Steps

variable {st st' : SockSystem} {sock sock' : SockRef} {q : RingBuf UInt8} {tid : ℕ}

theorem ringOf_setRing_self (h : st.ringOf sock = some q) (r : RingBuf UInt8) :
    (st.setRing sock r).ringOf sock = some r := by
  cases sock with
  | tcp id =>
    obtain ⟨s, hs, -⟩ := map_eq_some_iff.mp h
    simp [SockSystem.setRing, SockSystem.ringOf, hs]
  | unix id =>
    obtain ⟨s, hs, -⟩ := map_eq_some_iff.mp h
    simp [SockSystem.setRing, SockSystem.ringOf, modify_self, hs]

theorem ringOf_setRing_of_ne (hne : sock' ≠ sock) (r : RingBuf UInt8) :
    (st.setRing sock r).ringOf sock' = st.ringOf sock' := by
  cases sock <;> cases sock' <;>
    simp_all [SockSystem.setRing, SockSystem.ringOf, modifySock_sockets_of_ne, modify_of_ne]

@[simp] theorem ringOf_modifyThread (g : ReaderThread → ReaderThread) :
    (st.modifyThread tid g).ringOf sock = st.ringOf sock := by
  cases sock <;> rfl

@[simp] theorem threads_setRing (r : RingBuf UInt8) :
    (st.setRing sock r).threads = st.threads := by
  cases sock <;> rfl

theorem fifoRead8_empty (hq : q.tail = q.head) (size len : ℕ) (out : ℕ → UInt8) :
    (fifoRead8 size q len out).ring = q := by
  cases len with
  | zero => rfl
  | succ len => simp [fifoRead8, fifoRead, fifoReadLoop, hq]

/-- A read keeps a start state a start state: a thread that sleeps on the socket finds its queue as
it was, empty. -/
theorem ReaderStart.read (h : ReaderStart st) (hq : st.ringOf sock = some q) (len : ℕ)
    (out : ℕ → UInt8) : ReaderStart (st.setRing sock (fifoRead8 sock.size q len out).ring) := by
  constructor
  · intro tid t sock' q' ht hblocked hq'
    rw [threads_setRing] at ht
    by_cases hsock : sock' = sock
    · subst hsock
      rw [ringOf_setRing_self hq] at hq'
      have hempty := h.noLost tid t sock' q ht hblocked hq
      cases hq'
      rw [fifoRead8_empty hempty]
      exact hempty
    · rw [ringOf_setRing_of_ne hsock] at hq'
      exact h.noLost tid t sock' q' ht hblocked hq'
  · intro tid htid
    rw [threads_setRing]
    exact h.bound tid htid
  · intro id s hs htype hstate
    cases sock with
    | tcp _ => exact h.valid id s hs htype hstate
    | unix id' =>
      obtain ⟨x, hx, rfl⟩ := modify_eq_some.mp hs
      by_cases hid : id = id'
      · subst hid
        rw [if_pos rfl] at htype hstate ⊢
        obtain rfl : x.ring = q := by
          simpa [SockSystem.ringOf, hx] using hq
        have hs : udsStreamSize < 2 ^ 64 := by decide
        exact (fifoRead_spec hs (h.valid id x hx htype hstate) len out).1
      · rw [if_neg hid] at htype hstate ⊢
        exact h.valid id x hx htype hstate

theorem ReaderStart.modifyThread (h : ReaderStart st) {g : ReaderThread → ReaderThread}
    (hg : ∀ t sock q, st.threads tid = some t → (g t).BlockedOn sock → st.ringOf sock = some q →
      q.tail = q.head) : ReaderStart (st.modifyThread tid g) := by
  refine ⟨fun tid' t sock q ht hblocked hq => ?_, fun tid' htid' => ?_, h.valid⟩
  · obtain ⟨x, hx, rfl⟩ := modify_eq_some.mp ht
    by_cases htid : tid' = tid
    · subst htid
      rw [if_pos rfl] at hblocked
      exact hg x sock q hx hblocked hq
    · rw [if_neg htid] at hblocked
      exact h.noLost tid' x sock q hx hblocked hq
  · have hnone := h.bound tid' htid'
    by_cases htid : tid' = tid
    · subst htid
      exact modify_self.trans (by rw [hnone]; rfl)
    · exact (modify_of_ne htid).trans hnone

theorem bind_inTcp {addr : Option SockFlag} {flag : WaitFlag} :
    addr.bind SockFlag.inTcp = some flag ↔ addr = some (.tcp flag) := by
  rcases addr with - | (_ | _) <;> simp [SockFlag.inTcp]

theorem SockRef.recvFlag_inj (h : sock.recvFlag = sock'.recvFlag) : sock = sock' := by
  cases sock <;> cases sock' <;> simp_all [SockRef.recvFlag]

theorem SockRef.blockedState_ne (sock : SockRef) :
    sock.blockedState ≠ .running ∧ sock.blockedState ≠ .ready := by
  cases sock <;> simp [SockRef.blockedState]

theorem ReaderStart.readSocket (h : ReaderStart st)
    (hstep : st.readSocket tid sock payload payloadLen = some st') : ReaderStart st' := by
  obtain ⟨q, hq, rfl⟩ := map_eq_some_iff.mp hstep
  have hread := h.read hq payloadLen payload
  dsimp only
  split
  · exact hread
  · exact hread.modifyThread fun t sock' q' ht hblocked hq' =>
      hread.noLost tid t sock' q' ht hblocked hq'

theorem ReaderStart.readAgain (h : ReaderStart st)
    (hstep : st.readAgain tid sock payload payloadLen = some st') : ReaderStart st' := by
  obtain ⟨q, hq, rfl⟩ := map_eq_some_iff.mp hstep
  refine (h.read hq payloadLen payload).modifyThread fun t sock' q' _ hblocked _ => ?_
  exact absurd hblocked.1.symm sock'.blockedState_ne.1

/-- Threads that are only made ready do not sleep on data. -/
theorem ReaderStart.withStates (h : ReaderStart st) {states : ℕ → Option ThreadState}
    (hstates : ∀ tid t x, st.threads tid = some t → states tid = some x →
      x = t.state ∨ x = .ready) :
    ReaderStart (st.withStates states) := by
  refine ⟨fun tid t sock q ht hblocked hq => ?_, fun tid htid => ?_, h.valid⟩
  · obtain ⟨x, hx, rfl⟩ := map_eq_some_iff.mp ht
    have hstate : (states tid).getD x.state = x.state ∨ (states tid).getD x.state = .ready := by
      cases hs : states tid with
      | none => exact .inl rfl
      | some y => exact hstates tid x y hx hs
    rcases hstate with hsame | hready
    · exact h.noLost tid x sock q hx ⟨hsame.symm.trans hblocked.1, hblocked.2⟩
        (by cases sock <;> exact hq)
    · exact absurd (hblocked.1.symm.trans hready) sock.blockedState_ne.2
  · exact map_eq_none_iff.mpr (h.bound tid htid)

theorem tcpSendAck_threads (env : Env) (net : Net) (id : ℕ) :
    (tcpSendAck env net id).threads = net.threads := by
  unfold tcpSendAck
  split
  · rfl
  · exact nicSendIpv4_threads ..

theorem handleTcpEstablishedPacket_none {env : Env} {net : Net} {seg : Segment}
    (h : findSocketNotListen net (seg.tuple env) = none) :
    handleTcpEstablishedPacket env net seg = net := by
  unfold handleTcpEstablishedPacket
  rw [h]

theorem handleTcpEstablishedPacket_threads {env : Env} {net : Net} {seg : Segment}
    (h : findSocketNotListen net (seg.tuple env) = some id) :
    (handleTcpEstablishedPacket env net seg).threads = (wakeAll net (.recv id)).threads := by
  unfold handleTcpEstablishedPacket
  rw [h]
  dsimp only [wakeAll]
  rw [tcpSendAck_threads]
  rfl

/-- **A segment** wakes every thread that sleeps on the socket it is for. -/
theorem ReaderStart.tcpPacket (h : ReaderStart st) (env : Env) (seg : Segment) :
    ReaderStart (st.tcpPacket env seg) := by
  unfold SockSystem.tcpPacket
  cases hfound : findSocketNotListen st.tcp (seg.tuple env) with
  | none =>
    rw [handleTcpEstablishedPacket_none hfound]
    refine ReaderStart.withStates
      (show ReaderStart { st with net := st.tcp } from ⟨?_, h.bound, h.valid⟩) ?_
    · intro tid t sock q ht hblocked hq
      exact h.noLost tid t sock q ht hblocked (by cases sock <;> exact hq)
    · intro tid t x ht hx
      replace ht : st.threads tid = some t := ht
      simp only [SockSystem.tcp, ht, map_some, some.injEq] at hx
      exact .inl hx.symm
  | some id =>
    obtain ⟨s, hs, -⟩ := findSocketNotListen_spec hfound
    have heffect := handleTcpEstablishedPacket_spec hfound hs
    have hthreads : ∀ tid t, st.threads tid = some t →
        ((handleTcpEstablishedPacket env st.tcp seg).threads tid).map Thread.state =
          some (if t.BlockedOn (.tcp id) then .ready else t.state) := by
      intro tid t ht
      have hlt : tid < maxThreadsCount := by
        by_contra hge
        rw [h.bound tid (Nat.le_of_not_lt hge)] at ht
        cases ht
      rw [handleTcpEstablishedPacket_threads hfound]
      simp only [wakeAll, hlt, if_true, SockSystem.tcp, ht, map_some]
      simp only [Thread.wake, Thread.sleepsOn, ReaderThread.BlockedOn, SockRef.blockedState,
        SockRef.recvFlag, Bool.and_eq_true, beq_iff_eq, apply_ite Thread.state, bind_inTcp]
      congr
    -- only what is known of the tables behind the segment matters from here on
    obtain ⟨net, hnet⟩ : ∃ net, net = handleTcpEstablishedPacket env st.tcp seg := ⟨_, rfl⟩
    rw [← hnet] at heffect hthreads ⊢
    refine ⟨fun tid t sock q ht hblocked hq => ?_, fun tid htid => ?_, h.valid⟩
    · obtain ⟨x, hx, rfl⟩ := map_eq_some_iff.mp ht
      simp only [hthreads tid x hx, getD_some] at hblocked
      split_ifs at hblocked with hwoken
      · exact absurd hblocked.1.symm sock.blockedState_ne.2
      · -- a thread that still sleeps sleeps on another socket, whose queue is as it was
        have hne : sock ≠ .tcp id := fun heq => hwoken (heq ▸ hblocked)
        refine h.noLost tid x sock q hx hblocked ?_
        cases sock with
        | tcp id' =>
          have hid : id' ≠ id := fun heq => hne (heq ▸ rfl)
          exact (congrArg (Option.map Sock.ring) (heffect.others id' hid)).symm.trans hq
        | unix id' => exact hq
    · exact map_eq_none_iff.mpr (h.bound tid htid)

/-- The waker of `handle_stream_established_packet` makes a thread ready that does not sleep on
data. -/
theorem resume_state (u : Uds) (id : ℕ) {t : UdsThread} (ht : u.threads tid = some t) :
    ∃ t', (u.resumeFirstThreadPendingOnListenStream id).threads tid = some t' ∧
      (t'.state = t.state ∨ t'.state = .ready ∧ t.sleepFlagAddr = some (.listen id)) := by
  unfold Uds.resumeFirstThreadPendingOnListenStream
  split
  · exact ⟨t, ht, .inl rfl⟩
  · rename_i i hi
    by_cases htid : tid = i
    · subst htid
      refine ⟨{ t with state := .ready }, modify_self.trans (by rw [ht]; rfl), .inr ⟨rfl, ?_⟩⟩
      have hfound := List.find?_some hi
      rw [ht, Option.any_some, Bool.and_eq_true, beq_iff_eq, beq_iff_eq] at hfound
      exact hfound.2
    · exact ⟨t, (modify_of_ne htid).trans ht, .inl rfl⟩

theorem contents_socketAppend {s : UdsTupleStream} (hvalid : s.ring.Valid udsStreamSize)
    (hempty : s.ring.tail = s.ring.head) (hlen : len ≠ 0) (payload : ℕ → UInt8) :
    (fifoWrite8 udsStreamSize s.ring len payload).ring.tail ≠
      (fifoWrite8 udsStreamSize s.ring len payload).ring.head := by
  have hs : udsStreamSize < 2 ^ 64 := by decide
  obtain ⟨hvalid', -, hcontents⟩ := fifoWrite_spec hs hvalid len payload
  have hcount := congrArg List.length hcontents
  rw [List.length_append, length_cells, length_contents, length_contents,
    (eq_iff_count_eq_zero hvalid).mp hempty] at hcount
  intro heq
  have hzero := (eq_iff_count_eq_zero hvalid').mp heq
  have hsize : udsStreamSize = 20160 := rfl
  change count _ (fifoWrite8 _ _ _ _).ring = _ at hcount
  rw [fifoWrite8] at hcount
  omega

/-- **Data for a Unix-domain socket** is harmless exactly if no reader sleeps on the socket. -/
theorem ReaderStart.streamPacket (h : ReaderStart st)
    (hstep : st.streamPacket id payload len = some st') :
    ((ReaderCall.streamPacket id payload len).Harmless st → ReaderStart st') ∧
      (NoLostWakeup st' → (ReaderCall.streamPacket id payload len).Harmless st) := by
  obtain ⟨s, hs, rfl⟩ := map_eq_some_iff.mp hstep
  have hthread : ∀ tid t, st.threads tid = some t → st.unix.threads tid =
      some ⟨0, t.state, t.sleepFlagAddr.bind SockFlag.inUnix, none⟩ :=
    fun tid t ht => map_eq_some_iff.mpr ⟨t, ht, rfl⟩
  by_cases hest : s.type = .stream ∧ s.state = .established
  · have hpacket : st.unix.handleStreamEstablishedPacket s id payload len =
        (st.unix.socketAppend udsStreamSize id payload len).resumeFirstThreadPendingOnListenStream
          id := by
      rw [Uds.handleStreamEstablishedPacket, if_neg (by simp [hest])]
    have hsockets := (congrArg Uds.sockets hpacket).trans (resume_sockets _ _)
    have hstate := fun tid t ht => resume_state (st.unix.socketAppend udsStreamSize id payload len)
      id (hthread tid t ht)
    rw [← hpacket] at hstate
    obtain ⟨uds, huds⟩ : ∃ uds, uds = st.unix.handleStreamEstablishedPacket s id payload len :=
      ⟨_, rfl⟩
    rw [← huds] at hsockets hstate ⊢
    have hring : ({ st with uds } : SockSystem).ringOf (.unix id) =
        some (fifoWrite8 udsStreamSize s.ring len payload).ring := by
      simp only [SockSystem.ringOf, hsockets, Uds.socketAppend, Uds.sockets_modifySock]
      rw [modify_self, show st.unix.sockets = st.uds.sockets from rfl, hs]
      rfl
    have hvalid := h.valid id s hs hest.1 hest.2
    constructor
    · intro hharmless
      refine ReaderStart.withStates (show ReaderStart { st with uds } from ⟨?_, h.bound, ?_⟩) ?_
      · intro tid t sock q ht hblocked hq
        by_cases hsock : sock = .unix id
        · -- nobody sleeps on the socket, or nothing was appended
          subst hsock
          rcases Nat.eq_zero_or_pos len with rfl | hpos
          · cases hring.symm.trans hq
            exact h.noLost tid t _ s.ring ht hblocked (by simp [SockSystem.ringOf, hs])
          · exact absurd hblocked (hharmless ⟨s, hs, hest⟩ hpos.ne' tid t ht)
        · refine h.noLost tid t sock q ht hblocked ?_
          cases sock with
          | tcp _ => exact hq
          | unix id' =>
            have hid : id' ≠ id := fun heq => hsock (heq ▸ rfl)
            rw [← hq, SockSystem.ringOf, SockSystem.ringOf, hsockets]
            exact congrArg _ (modify_of_ne hid).symm
      · intro id' x hx htype hstate'
        rw [hsockets] at hx
        obtain ⟨y, hy, rfl⟩ := modify_eq_some.mp hx
        by_cases hid : id' = id
        · subst hid
          cases hs.symm.trans hy
          rw [if_pos rfl]
          have hsize : udsStreamSize < 2 ^ 64 := by decide
          exact (fifoWrite_spec hsize hvalid len payload).1
        · rw [if_neg hid] at htype hstate' ⊢
          exact h.valid id' y hy htype hstate'
      · intro tid t x ht hx
        obtain ⟨t', ht', hor⟩ := hstate tid t ht
        simp only [ht', map_some, some.injEq] at hx
        exact hx ▸ hor.imp_right And.left
    · intro hnoLost _ hlen tid t ht hblocked
      -- the reader still sleeps, and its queue was empty before
      have hempty := h.noLost tid t _ s.ring ht hblocked (by simp [SockSystem.ringOf, hs])
      refine contents_socketAppend hvalid hempty hlen payload ?_
      obtain ⟨t', ht', hor⟩ := hstate tid t ht
      have hsame : t'.state = t.state := by
        refine hor.resolve_right fun hlisten => ?_
        simp [hblocked.2, SockRef.recvFlag, SockFlag.inUnix] at hlisten
      refine hnoLost tid { t with state := t'.state } _ _ (map_eq_some_iff.mpr ⟨t, ht, ?_⟩)
        ⟨hsame.trans hblocked.1, hblocked.2⟩ hring
      simp only [ht', map_some, getD_some]
  · -- the socket is not connected: nothing happens
    have hpacket : st.unix.handleStreamEstablishedPacket s id payload len = st.unix :=
      if_pos (by rwa [← not_and_or])
    dsimp only
    rw [hpacket]
    constructor
    · intro _
      refine ReaderStart.withStates
        (show ReaderStart { st with uds := st.unix } from ⟨?_, h.bound, h.valid⟩) ?_
      · intro tid t sock q ht hblocked hq
        exact h.noLost tid t sock q ht hblocked (by cases sock <;> exact hq)
      · intro tid t x ht hx
        simp only [hthread tid t ht, map_some, some.injEq] at hx
        exact .inl hx.symm
    · rintro - ⟨x, hx, hx'⟩
      cases hs.symm.trans hx
      exact absurd hx' hest

/-- **Going to sleep** is harmless exactly if the queue is still empty. -/
theorem ReaderStart.sleep (h : ReaderStart st)
    (hstep : (ReaderCall.sleep tid).apply st = some st') :
    ((ReaderCall.sleep tid).Harmless st → ReaderStart st') ∧
      (NoLostWakeup st' → (ReaderCall.sleep tid).Harmless st) := by
  simp only [ReaderCall.apply] at hstep
  split at hstep
  · rename_i addr sock payload len hthread
    cases hstep
    constructor
    · intro hharmless
      refine h.modifyThread fun t sock' q _ hblocked hq => ?_
      obtain rfl : sock = sock' := SockRef.recvFlag_inj (some.inj hblocked.2)
      exact hharmless _ sock payload len q hthread rfl hq
    · intro hnoLost t sock' payload' len' q ht hrest hq
      cases hthread.symm.trans ht
      obtain ⟨rfl, -, -⟩ : sock = sock' ∧ payload = payload' ∧ len = len' := by simpa using hrest
      have hasleep : (st.sleepByResource tid sock payload len).threads tid =
          some ⟨sock.blockedState, some sock.recvFlag, some (.again sock payload len)⟩ :=
        modify_self.trans (by rw [hthread]; rfl)
      exact hnoLost tid _ sock q hasleep ⟨rfl, rfl⟩ ((ringOf_modifyThread _).trans hq)
  · cases hstep

/-- **One step.** -/
theorem ReaderStart.step (h : ReaderStart st) {c : ReaderCall} (hstep : c.apply st = some st') :
    (c.Harmless st → ReaderStart st') ∧ (NoLostWakeup st' → c.Harmless st) := by
  cases c with
  | readTcp tid id payload len =>
    obtain ⟨-, hstep⟩ := ite_none_right_eq_some.mp hstep
    exact ⟨fun _ => h.readSocket hstep, fun _ => trivial⟩
  | readStream tid id payload len =>
    obtain ⟨-, hstep⟩ := ite_none_right_eq_some.mp hstep
    exact ⟨fun _ => h.readSocket hstep, fun _ => trivial⟩
  | sleep tid => exact h.sleep hstep
  | resume tid =>
    simp only [ReaderCall.apply] at hstep
    split at hstep
    · exact ⟨fun _ => h.readAgain hstep, fun _ => trivial⟩
    · cases hstep
  | tcpPacket env seg =>
    obtain rfl := some.inj hstep
    exact ⟨fun _ => h.tcpPacket env seg, fun _ => trivial⟩
  | streamPacket id payload len => exact h.streamPacket hstep

/-- **No reader sleeps on data as long as the steps are harmless**, and the next step keeps this
exactly if it is harmless. -/
theorem noLostWakeup_iff_harmless {st₀ : SockSystem} (hstart : ReaderStart st₀)
    {calls : List ReaderCall}
    (hrun : Run ReaderCall.apply (fun st c => c.Harmless st) st₀ calls st) :
    NoLostWakeup st ∧ ∀ (c : ReaderCall) (st' : SockSystem), c.apply st = some st' →
      (NoLostWakeup st' ↔ c.Harmless st) := by
  have h : ReaderStart st := by
    refine hrun.invariant ReaderStart ?_ hstart
    intro s c s' hs hharmless hstep
    exact (hs.step hstep).1 hharmless
  refine ⟨h.noLost, fun c st' hstep => ?_⟩
  obtain ⟨hkeeps, hback⟩ := h.step hstep
  exact ⟨hback, fun hharmless => (hkeeps hharmless).noLost⟩

end Steps

/-! ## A reader -/

/-- An established TCP socket 0 and a connected Unix-domain socket 0, both with empty queues, and a
running thread. -/
def oneReader : SockSystem where
  net := Net.ofSock (sampleSock .established)
  uds :=
    { sockets := fun i =>
        if i = 0 then some ⟨0, .stream, [], [], .established, 1, ⟨fun _ => 0, 0, 0⟩⟩ else none
      threads := fun _ => none
      fds := fun _ _ => default }
  threads := fun tid => if tid = 0 then some ⟨.running, none, none⟩ else none

theorem oneReader_start : ReaderStart oneReader := by
  refine ⟨?_, ?_, ?_⟩
  · intro tid t sock q ht hblocked
    simp only [oneReader] at ht
    split_ifs at ht
    cases ht
    cases hblocked.2
  · intro tid htid
    have hne : tid ≠ 0 := by
      rintro rfl
      cases htid
    simp [oneReader, hne]
  · intro id s hs _ _
    simp only [oneReader] at hs
    split_ifs at hs
    cases hs
    decide

/-- One byte for the TCP socket of `oneReader`. -/
def oneByte : Segment where
  srcIp := 2
  dstIp := 1
  srcPort := 4
  dstPort := 3
  seq := 0
  ackSeq := 0
  flags := 0
  payload := fun _ => 7
  payloadLen := 1

def ReadRest.sock : ReadRest → SockRef
  | .sleep sock _ _ => sock
  | .again sock _ _ => sock

/-- A reader that sleeps in time is woken by the segment, and finds the byte. -/
theorem noLostWakeup_iff_harmless_tcp : ∃ st,
    Run ReaderCall.apply (fun st c => c.Harmless st) oneReader
      [.readTcp 0 0 (fun _ => 0) 1, .sleep 0, .tcpPacket resolvedEnv oneByte] st ∧
    ((ReaderCall.resume 0).apply st).isSome ∧ NoLostWakeup st := by
  obtain ⟨st₁, hst₁, ⟨t, ht, hrest⟩, hempty, st₂, hst₂, st, hpacket, hresume⟩ :
      ∃ st₁ ∈ (ReaderCall.readTcp 0 0 (fun _ => 0) 1).apply oneReader,
        (Holds st₁.threads 0 fun t => t.rest.map ReadRest.sock = some (.tcp 0)) ∧
        (∀ q ∈ st₁.ringOf (.tcp 0), q.tail = q.head) ∧
      ∃ st₂ ∈ (ReaderCall.sleep 0).apply st₁,
      ∃ st ∈ (ReaderCall.tcpPacket resolvedEnv oneByte).apply st₂,
        ((ReaderCall.resume 0).apply st).isSome := by
    decide +kernel
  have hharmless : (ReaderCall.sleep 0).Harmless st₁ := by
    intro t' sock payload len q ht' hrest' hq
    cases ht.symm.trans ht'
    obtain rfl : sock = .tcp 0 := by simpa [hrest', ReadRest.sock] using hrest
    exact hempty q hq
  have hrun : Run ReaderCall.apply (fun st c => c.Harmless st) oneReader
      [.readTcp 0 0 (fun _ => 0) 1, .sleep 0, .tcpPacket resolvedEnv oneByte] st :=
    .snoc (.snoc (.snoc (.nil _) trivial hst₁) hharmless hst₂) trivial hpacket
  exact ⟨st, hrun, hresume, (noLostWakeup_iff_harmless oneReader_start hrun).1⟩

theorem not_noLostWakeup {st : SockSystem} {r : SockRef}
    (h : (Holds st.threads 0 fun t => t.BlockedOn r) ∧ ∃ q ∈ st.ringOf r, q.tail ≠ q.head) :
    ¬NoLostWakeup st := by
  obtain ⟨⟨t, ht, hblocked⟩, q, hq, hne⟩ := h
  exact fun hnoLost => hne (hnoLost 0 t r q ht hblocked hq)

/-- **Readers that are not woken**: one of a Unix-domain socket that sleeps when data arrives, and
one of a TCP socket that goes to sleep when data has arrived. -/
theorem reader_not_woken :
    (∃ st, Run ReaderCall.apply (fun _ _ => True) oneReader
      [.readStream 0 0 (fun _ => 0) 1, .sleep 0, .streamPacket 0 (fun _ => 7) 1] st ∧
      ¬NoLostWakeup st) ∧
    ∃ st, Run ReaderCall.apply (fun _ _ => True) oneReader
      [.readTcp 0 0 (fun _ => 0) 1, .tcpPacket resolvedEnv oneByte, .sleep 0] st ∧
      ¬NoLostWakeup st := by
  constructor
  · exact Run.exists_of_eval (by decide +kernel) fun _ _ => not_noLostWakeup (r := .unix 0)
  · exact Run.exists_of_eval (by decide +kernel) fun _ _ => not_noLostWakeup (r := .tcp 0)

end CarrotOS
