import CarrotOS.Lib.Table
import CarrotOS.Net.Queue
import CarrotOS.Net.Syscall

/-!
# Connections of Unix-domain stream sockets (`core/network/af_unix`)

A client that connects to a path makes a new socket for the server side, links the two, and puts the
number of the new one into the queue of the listener. `handle_stream_accept` takes a number from the
queue; if there is none, it sleeps; and in both cases it then takes a number from the queue, which
is the connection that it returns.

The call is cut where other threads can come in: behind the first look at the queue, and where the
thread sleeps. A call that follows a null pointer or needs the word behind a full table has no
successor.
-/

namespace CarrotOS

open RingQueue Bytes Table Function List Option

/-! ## The tables -/

inductive UdsState where
  | closed | bound | listen | backlogClient | backlogServer | established
  deriving DecidableEq, Repr, Inhabited

inductive UdsSocketType where
  | none | dgram | stream
  deriving DecidableEq, Repr, Inhabited

/-- The part of `struct uds_tuple_stream` that is used here. The ring is `head`, `tail` and the
bytes behind the structure. -/
structure UdsTupleStream where
  id : ℕ
  type : UdsSocketType
  -- the two paths without the byte 0 that ends them
  localPath : List UInt8
  remotePath : List UInt8
  state : UdsState
  peerId : ℕ
  ring : RingBuf UInt8

/-- What a thread has left to do of `handle_stream_accept`. -/
inductive AcceptRest where
  | sleep (listenerId : ℕ)
  | pull (listenerId : ℕ)
  deriving DecidableEq, Repr

/-- The part of `thread_info_t` used here. The address is that of a wait flag of a Unix-domain
socket. -/
structure UdsThread where
  pid : ℕ
  state : ThreadState
  sleepFlagAddr : Option WaitFlag
  rest : Option AcceptRest
  deriving DecidableEq, Repr

/-- `uds_socket_global`, the threads, and the descriptors of each process. -/
structure Uds where
  sockets : ℕ → Option UdsTupleStream
  threads : ℕ → Option UdsThread
  fds : ℕ → ℕ → FileInner

def maxUdsSocketsCount : ℕ := 5120

/-- The size of the buffer of a socket: six blocks without the structure. -/
def streamBufferSize : ℕ := 4096 * (5 + 1) - 320

namespace Uds

def modifySock (u : Uds) (i : ℕ) (g : UdsTupleStream → UdsTupleStream) : Uds :=
  { u with sockets := modify u.sockets i g }

def modifyThread (u : Uds) (tid : ℕ) (g : UdsThread → UdsThread) : Uds :=
  { u with threads := modify u.threads tid g }

@[simp] theorem sockets_modifySock (u : Uds) (i : ℕ) (g : UdsTupleStream → UdsTupleStream) :
    (u.modifySock i g).sockets = modify u.sockets i g := rfl

@[simp] theorem threads_modifyThread (u : Uds) (tid : ℕ) (g : UdsThread → UdsThread) :
    (u.modifyThread tid g).threads = modify u.threads tid g := rfl

/-! ## The queue of a listener -/

def pushBacklogStream (u : Uds) (childSockid listenerId : ℕ) : Option Uds :=
  match u.sockets listenerId with
  | none => none
  | some _ => some (u.modifySock listenerId fun lis =>
      { lis with ring := (pushId streamBufferSize lis.ring childSockid).1 })

def pullBacklogStream (u : Uds) (listenerId : ℕ) : Option (Uds × ℕ) :=
  match u.sockets listenerId with
  | none => none
  | some lis =>
    let r := pullId streamBufferSize lis.ring
    some (u.modifySock listenerId fun lis => { lis with ring := r.1 }, r.2)

/-! ## `handle_connect_stream` -/

def resumeFirstThreadPendingOnListenStream (u : Uds) (listenerId : ℕ) : Uds :=
  match (range maxThreadsCount).find? fun i => (u.threads i).any fun t =>
      t.state == .blockedUds && t.sleepFlagAddr == some (.listen listenerId) with
  | none => u
  | some i => u.modifyThread i fun t => { t with state := .ready }

/-- The loop of `handle_connect_stream` over the sockets that listen. -/
def findStreamListener (u : Uds) (sunPath : List UInt8) : Option ℕ :=
  (range maxUdsSocketsCount).find? fun i => (u.sockets i).any fun s =>
    s.type == .stream && s.localPath == sunPath && s.state == .listen

def freeSocket (u : Uds) : Option ℕ :=
  (range maxUdsSocketsCount).find? fun i => (u.sockets i).isNone

/-- `create_socket_stream`, for a structure that is zero, and the assignments that follow it. The
bytes behind the structure are those of a fresh block. -/
def serverSock (fresh : ℕ → UInt8) (server client : ℕ) : UdsTupleStream where
  id := server
  type := .stream
  localPath := []
  remotePath := []
  state := .backlogServer
  peerId := client
  ring := ⟨fresh, 0, 0⟩

def handleConnectStream (u : Uds) (fresh : ℕ → UInt8) (clientSockId : ℕ) (sunPath : List UInt8) :
    Option (Uds × Bool) :=
  match u.sockets clientSockId with
  | none => none
  | some clientSock =>
    if clientSock.type ≠ .stream then some (u, false)
    else if clientSock.state ≠ .closed ∧ clientSock.state ≠ .bound then some (u, false)
    else
      match u.findStreamListener sunPath with
      | none => some (u, false)
      | some listeningSockId =>
        let u := u.modifySock clientSockId fun s => { s with state := .backlogClient }
        match u.freeSocket with
        | none => none
        | some serverSockId =>
          let u := { u with
            sockets := update u.sockets serverSockId
              (some (serverSock fresh serverSockId clientSockId)) }
          let u := u.modifySock clientSockId fun s => { s with peerId := serverSockId }
          (u.pushBacklogStream serverSockId listeningSockId).map fun u =>
            (u.resumeFirstThreadPendingOnListenStream listeningSockId, true)

/-! ## `handle_stream_accept` -/

/-- `handle_stream_accept` by the thread `tid`, up to the first look at the queue. The number that
it finds there is only compared with -1. -/
def streamAcceptEnter (u : Uds) (tid listenerId : ℕ) : Option (Uds × Option ℕ) :=
  match u.sockets listenerId with
  | none => none
  | some listenerSock =>
    if listenerSock.type ≠ .stream then some (u, some (errno eOpNotSupp))
    else
      (u.pullBacklogStream listenerId).map fun (u, serverSockId) =>
        (u.modifyThread tid fun t => { t with
          rest := some (if serverSockId = noId then .sleep listenerId else .pull listenerId) },
            none)

/-- `sleep_by_resource` on the `listen_wait_flag` of the listener. -/
def streamAcceptSleep (u : Uds) (tid listenerId : ℕ) : Uds :=
  u.modifyThread tid fun t => { t with
    state := .blockedUds
    sleepFlagAddr := some (.listen listenerId)
    rest := some (.pull listenerId) }

@[inherit_doc freeDescriptor]
def freeFd (u : Uds) (pid : ℕ) : Option ℕ :=
  freeRecord maxFdInner 80 default (u.fds pid)

/-- What the end of `handle_stream_accept` has done: the tables, the socket taken from the queue and
the result. -/
structure AcceptEnd where
  uds : Uds
  taken : Option ℕ
  result : ℕ

/-- The rest of `handle_stream_accept`, from the second look at the queue on. -/
def streamAcceptFinish (u : Uds) (tid pid listenerId : ℕ) : Option AcceptEnd :=
  match u.pullBacklogStream listenerId with
  | none => none
  | some (u, serverSockId) =>
    let u := u.modifyThread tid fun t => { t with state := .running, rest := none }
    if serverSockId = noId then some ⟨u, none, noId⟩
    else
      match u.sockets serverSockId with
      | none => none
      | some serverSock =>
        let clientSockId := serverSock.peerId
        match u.sockets clientSockId with
        | none => none
        | some _ =>
          let u := u.modifySock serverSockId fun s => { s with state := .established }
          let u := u.modifySock clientSockId fun s => { s with state := .established }
          match u.freeFd pid with
          | none => none
          | some fd =>
            let newfd := { u.fds pid fd with
              type := .socketUds
              openFlags := oRdwr
              resId := serverSockId }
            some ⟨{ u with
              fds := update u.fds pid (update (u.fds pid) fd newfd) },
              some serverSockId, fd⟩

end Uds

/-! ## What the calls do to the sockets -/

section Effects

variable {u u' : Uds} {t t' : ℕ → Option UdsTupleStream} {l client server tid pid : ℕ}
  {s : UdsTupleStream} {fresh : ℕ → UInt8} {path : List UInt8} {q : List ℕ}

def UdsTupleStream.Listens (s : UdsTupleStream) : Prop :=
  s.type = .stream ∧ s.state = .listen

instance (s : UdsTupleStream) : Decidable s.Listens :=
  inferInstanceAs (Decidable (_ ∧ _))

/-- A new connection from `client` to the listener `l`, with the socket `server` on its side. -/
structure ConnectEffect (fresh : ℕ → UInt8) (client server l : ℕ)
    (t t' : ℕ → Option UdsTupleStream) : Prop where
  free : t server = none
  lt : server < maxUdsSocketsCount
  clientSock : ∃ c, t client = some c ∧ (c.state = .closed ∨ c.state = .bound) ∧
    t' client = some { c with state := .backlogClient, peerId := server }
  listener : ∃ s, t l = some s ∧ s.Listens ∧
    t' l = some { s with ring := (fifoWrite8 streamBufferSize s.ring 8 (leByte server)).ring }
  serverSock : t' server = some (Uds.serverSock fresh server client)
  other : ∀ i, i ≠ client → i ≠ server → i ≠ l → t' i = t i

theorem findStreamListener_spec (h : u.findStreamListener path = some l) :
    ∃ s, u.sockets l = some s ∧ s.Listens := by
  have hfound := find?_some h
  obtain ⟨s, hs, htest⟩ := (any_eq_true _ _).mp hfound
  simp only [Bool.and_eq_true, beq_iff_eq] at htest
  exact ⟨s, hs, htest.1.1, htest.2⟩

theorem freeSocket_modifySock (u : Uds) (i : ℕ) (g : UdsTupleStream → UdsTupleStream) :
    (u.modifySock i g).freeSocket = u.freeSocket := by
  unfold Uds.freeSocket
  congr 1
  funext j
  rw [Uds.sockets_modifySock]
  by_cases hj : j = i
  · subst hj
    rw [modify_self, isNone_map]
  · rw [modify_of_ne hj]

theorem freeSocket_spec (h : u.freeSocket = some server) :
    u.sockets server = none ∧ server < maxUdsSocketsCount := by
  rw [Uds.freeSocket] at h
  have hfree := find?_some h
  exact ⟨isNone_iff_eq_none.mp hfree, mem_range.mp (mem_of_find?_eq_some h)⟩

theorem resume_sockets (u : Uds) (l : ℕ) :
    (u.resumeFirstThreadPendingOnListenStream l).sockets = u.sockets := by
  unfold Uds.resumeFirstThreadPendingOnListenStream
  split <;> rfl

def Uds.rests (u : Uds) (tid : ℕ) : Option AcceptRest :=
  (u.threads tid).bind UdsThread.rest

theorem rests_modifyThread_of_ne (u : Uds) {tid' : ℕ} (h : tid' ≠ tid) (g : UdsThread → UdsThread) :
    (u.modifyThread tid g).rests tid' = u.rests tid' := by
  rw [Uds.rests, Uds.threads_modifyThread, modify_of_ne h]
  rfl

theorem resume_rests (u : Uds) (l : ℕ) :
    (u.resumeFirstThreadPendingOnListenStream l).rests = u.rests := by
  unfold Uds.resumeFirstThreadPendingOnListenStream
  split
  · rfl
  · rename_i i _
    funext tid
    by_cases htid : tid = i
    · subst htid
      rw [Uds.rests, Uds.threads_modifyThread, modify_self, bind_map]
      rfl
    · exact rests_modifyThread_of_ne u htid _

/-- A connect fails and changes nothing, or makes a connection. -/
theorem connect_cases {b : Bool} (h : u.handleConnectStream fresh client path = some (u', b)) :
    b = false ∧ u' = u ∨ b = true ∧ ∃ l server, u.findStreamListener path = some l ∧
      u.freeSocket = some server ∧ ConnectEffect fresh client server l u.sockets u'.sockets ∧
      u'.rests = u.rests := by
  unfold Uds.handleConnectStream at h
  split at h
  · cases h
  rename_i c hc
  split at h
  · cases h
    exact .inl ⟨rfl, rfl⟩
  split at h
  · cases h
    exact .inl ⟨rfl, rfl⟩
  rename_i hstate
  have hstate : c.state = .closed ∨ c.state = .bound := by
    rw [← not_ne_iff, ← not_ne_iff, ← not_and_or]
    exact hstate
  split at h
  · cases h
    exact .inl ⟨rfl, rfl⟩
  rename_i l hl
  obtain ⟨s, hs, hlistens⟩ := findStreamListener_spec hl
  dsimp only at h
  rw [freeSocket_modifySock] at h
  split at h
  · cases h
  rename_i server hserver
  obtain ⟨hfree, hlt⟩ := freeSocket_spec hserver
  -- the three sockets are different
  have hlc : l ≠ client := by
    rintro rfl
    cases hs.symm.trans hc
    rw [hlistens.2] at hstate
    simp at hstate
  have hls : l ≠ server := by
    rintro rfl
    simp [hfree] at hs
  have hcs : client ≠ server := by
    rintro rfl
    simp [hfree] at hc
  obtain ⟨u1, hpush, hu⟩ := map_eq_some_iff.mp h
  obtain ⟨rfl, rfl⟩ := Prod.mk.inj hu
  unfold Uds.pushBacklogStream at hpush
  split at hpush
  · cases hpush
  cases hpush
  refine .inr ⟨rfl, l, server, hl, hserver, ⟨hfree, hlt, ⟨c, hc, hstate, ?_⟩, ⟨s, hs, hlistens, ?_⟩,
    ?_, ?_⟩, ?_⟩
  · rw [resume_sockets]
    simp only [Uds.sockets_modifySock]
    rw [modify_of_ne hlc.symm, modify_self, update_of_ne hcs, modify_self, hc]
    rfl
  · rw [resume_sockets]
    simp only [Uds.sockets_modifySock]
    rw [modify_self, modify_of_ne hlc, update_of_ne hls, modify_of_ne hlc, hs]
    rfl
  · rw [resume_sockets]
    simp only [Uds.sockets_modifySock]
    rw [modify_of_ne hls.symm, modify_of_ne hcs.symm, update_self]
  · intro i hic his hil
    rw [resume_sockets]
    simp only [Uds.sockets_modifySock]
    rw [modify_of_ne hil, modify_of_ne hic, update_of_ne his, modify_of_ne hic]
  · rw [resume_rests]
    rfl

theorem pullBacklogStream_spec (hs : u.sockets l = some s) (hq : Queued streamBufferSize s.ring q) :
    ∃ r, Queued streamBufferSize r q.tail ∧ u.pullBacklogStream l =
      some (u.modifySock l fun s => { s with ring := r }, q.headD noId) := by
  obtain ⟨hrest, hfirst⟩ := hq.read (by decide)
  refine ⟨_, hrest, ?_⟩
  unfold Uds.pullBacklogStream
  rw [hs]
  dsimp only
  rw [hfirst]

theorem enter_cases {r : Option ℕ} (hs : u.sockets l = some s) (htype : s.type = .stream)
    (hq : Queued streamBufferSize s.ring q) (h : u.streamAcceptEnter tid l = some (u', r)) :
    ∃ ring, Queued streamBufferSize ring q.tail ∧
      u'.sockets = modify u.sockets l (fun s => { s with ring := ring }) ∧
      (∀ tid' ≠ tid, u'.rests tid' = u.rests tid') ∧
      ∀ rest, u'.rests tid = some rest → rest = .sleep l ∨ rest = .pull l := by
  obtain ⟨ring, hring, hpull⟩ := pullBacklogStream_spec hs hq
  unfold Uds.streamAcceptEnter at h
  rw [hs, hpull] at h
  dsimp only at h
  rw [if_neg (not_not.mpr htype)] at h
  cases h
  refine ⟨ring, hring, rfl, fun tid' htid' =>
    rests_modifyThread_of_ne _ htid' _, fun rest hrest => ?_⟩
  rw [Uds.rests, Uds.threads_modifyThread, modify_self, bind_map] at hrest
  obtain ⟨t, -, ht⟩ := bind_eq_some_iff.mp hrest
  cases ht
  split
  · exact .inl rfl
  · exact .inr rfl

/-- The second look takes a number from the queue; the socket with this number and its peer are
connected. -/
theorem finish_cases {e : Uds.AcceptEnd} (hs : u.sockets l = some s)
    (hq : Queued streamBufferSize s.ring q) (h : u.streamAcceptFinish tid pid l = some e) :
    ∃ ring, Queued streamBufferSize ring q.tail ∧
      (∀ tid', e.uds.rests tid' = if tid' = tid then none else u.rests tid') ∧
      let t := modify u.sockets l fun s => { s with ring := ring }
      (q = [] ∧ e.taken = none ∧ e.uds.sockets = t ∨
        ∃ server rest sock, q = server :: rest ∧ e.taken = some server ∧ t server = some sock ∧
          e.uds.sockets = modify (modify t server fun s => { s with state := .established })
            sock.peerId fun s => { s with state := .established }) := by
  obtain ⟨ring, hring, hpull⟩ := pullBacklogStream_spec hs hq
  refine ⟨ring, hring, ?_⟩
  unfold Uds.streamAcceptFinish at h
  rw [hpull] at h
  dsimp only at h
  have hrests : ∀ tid', ((u.modifySock l fun s => { s with ring := ring }).modifyThread tid
      fun t => { t with state := .running, rest := none }).rests tid' =
        if tid' = tid then none else u.rests tid' := by
    intro tid'
    split_ifs with htid
    · subst htid
      rw [Uds.rests, Uds.threads_modifyThread, modify_self, bind_map]
      exact bind_fun_none _
    · exact rests_modifyThread_of_ne _ htid _
  cases q with
  | nil =>
    cases h
    exact ⟨hrests, .inl ⟨rfl, rfl, rfl⟩⟩
  | cons server rest =>
    have hne : server ≠ noId := Nat.ne_of_lt (hq.lt server mem_cons_self)
    rw [headD_cons, if_neg hne] at h
    split at h
    · cases h
    rename_i sock hsock
    split at h
    · cases h
    split at h
    · cases h
    cases h
    exact ⟨hrests, .inr ⟨server, rest, sock, rfl, rfl, hsock, rfl⟩⟩

end Effects

end CarrotOS
