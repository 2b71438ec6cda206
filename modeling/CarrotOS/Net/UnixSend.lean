import CarrotOS.Net.UnixAccept

/-!
# Sending on Unix-domain sockets (`core/network/af_unix`)

A send looks for the receiver by a path: the destination given by the caller, or the `remote_path`
of the sender. The receiver is the first socket of the table whose `local_path` is this path, and a
stream socket is only asked whether it is connected, not to whom. The two ends of a connection know
each other by `peer_id`, which no send looks at, and their `remote_path` is never set: what is sent
on a connected socket goes to the first socket without a path.
-/

namespace CarrotOS

open Table Transition Uds

variable {b : UdsTupleStream}

/-! ## The code -/

def udsStreamSize : ℕ := socketBlockCount * 4096 - 320

/-- The size of the receive queue of a datagram socket, whose structure is shorter. -/
def udsDgramSize : ℕ := socketBlockCount * 4096 - 272

namespace Uds

/-- The loop of `find_socket_uds_with_local_addr`. A free entry of the table is a null pointer,
which the loop follows. -/
def findLocalLoop (sockets : ℕ → Option UdsTupleStream) (path : List UInt8) :
    ℕ → ℕ → Option (Option ℕ)
  | 0, _ => some none
  | rest + 1, i =>
    match sockets i with
    | none => none
    | some tmp =>
      if tmp.localPath = path then some (some i) else findLocalLoop sockets path rest (i + 1)

def findSocketUdsWithLocalAddr (u : Uds) (path : List UInt8) : Option (Option ℕ) :=
  findLocalLoop u.sockets path maxUdsSocketsCount 0

/-- `socket_append_uds` and `socket_append_uds_stream`, which differ in the size. -/
def socketAppend (u : Uds) (size socketId : ℕ) (payload : ℕ → UInt8) (payloadLen : ℕ) : Uds :=
  u.modifySock socketId fun t => { t with ring := (fifoWrite8 size t.ring payloadLen payload).ring }

def handleDgramPacket (u : Uds) (path : List UInt8) (payload : ℕ → UInt8) (payloadLen : ℕ) :
    Option Uds :=
  if payloadLen = 0 then some u
  else
    (u.findSocketUdsWithLocalAddr path).map fun
      | none => u
      | some socketId =>
        let u := u.socketAppend udsDgramSize socketId payload payloadLen
        { u with
          threads := sweep maxThreadsCount
            (fun _ t => t.state == .blockedNetwork && t.sleepFlagAddr == some (.recv socketId))
            (fun t => { t with state := .ready }) u.threads }

def handleStreamEstablishedPacket (u : Uds) (sock : UdsTupleStream) (socketId : ℕ)
    (payload : ℕ → UInt8) (payloadLen : ℕ) : Uds :=
  if sock.type ≠ .stream ∨ sock.state ≠ .established then u
  else
    (u.socketAppend udsStreamSize socketId payload payloadLen)
      |>.resumeFirstThreadPendingOnListenStream socketId

/-- `handle_uds`, with `handle_dgram` and `handle_stream`. -/
def handleUds (u : Uds) (udsSockId : ℕ) (buf : ℕ → UInt8) (bufLen : ℕ) : Option Uds :=
  match u.sockets udsSockId with
  | none => none
  | some tup =>
    match tup.type with
    | .dgram => u.handleDgramPacket tup.localPath buf bufLen
    | .stream =>
      match tup.state with
      | .established => some (u.handleStreamEstablishedPacket tup udsSockId buf bufLen)
      | _ => some u
    | .none => some u

/-- `uds_send_dispatch` with a path. -/
def dispatchTo (u : Uds) (data : ℕ → UInt8) (len : ℕ) (dstAddr : List UInt8) : Option Uds :=
  match u.findSocketUdsWithLocalAddr dstAddr with
  | none => none
  | some none => some u
  | some (some receiverUdsSockId) => u.handleUds receiverUdsSockId data len

def udsSendDispatch (u : Uds) (senderUdsSockId : ℕ) (data : ℕ → UInt8) (len : ℕ)
    (dstAddr : Option (List UInt8)) : Option Uds :=
  match dstAddr with
  | some path => u.dispatchTo data len path
  | none =>
    match u.sockets senderUdsSockId with
    | none => none
    | some sender => u.dispatchTo data len sender.remotePath

/-- `sys_sendto` for the descriptor of a Unix-domain socket. -/
def sysSendto (u : Uds) (pid sockfd : ℕ) (buf : ℕ → UInt8) (len : ℕ)
    (destAddr : Option (List UInt8)) : Option Uds :=
  let resId := (u.fds pid sockfd).resId
  match destAddr with
  | some sunPath => u.udsSendDispatch resId buf len (some sunPath)
  | none =>
    match u.sockets resId with
    | none => none
    | some sock => u.udsSendDispatch resId buf len (some sock.remotePath)

def sendStreamEstablishedPacket (u : Uds) (socketId : ℕ) (payload : ℕ → UInt8) (payloadLen : ℕ) :
    Option Uds :=
  match u.sockets socketId with
  | none => none
  | some sock =>
    if sock.type ≠ .stream ∨ sock.state ≠ .established then some u
    else u.udsSendDispatch socketId payload payloadLen none

end Uds

/-! ## Sends and pairs -/

inductive UdsSend where
  | sendto (pid sockfd : ℕ) (buf : ℕ → UInt8) (len : ℕ) (destAddr : Option (List UInt8))
  | established (socketId : ℕ) (payload : ℕ → UInt8) (payloadLen : ℕ)

namespace UdsSend

def apply (u : Uds) : UdsSend → Option Uds
  | .sendto pid sockfd buf len destAddr => u.sysSendto pid sockfd buf len destAddr
  | .established socketId payload payloadLen =>
    u.sendStreamEstablishedPacket socketId payload payloadLen

def On (u : Uds) (s : ℕ) : UdsSend → Prop
  | .sendto pid sockfd _ _ _ =>
    (u.fds pid sockfd).type = .socketUds ∧ (u.fds pid sockfd).resId = s
  | .established socketId _ _ => socketId = s

def buf : UdsSend → ℕ → UInt8
  | .sendto _ _ buf _ _ => buf
  | .established _ payload _ => payload

def len : UdsSend → ℕ
  | .sendto _ _ _ len _ => len
  | .established _ _ payloadLen => payloadLen

def destAddr : UdsSend → Option (List UInt8)
  | .sendto _ _ _ _ destAddr => destAddr
  | .established .. => none

end UdsSend

/-- The two ends of a connection: stream sockets that are each other's peer. -/
structure Matched (t : ℕ → Option UdsTupleStream) (s p : ℕ) : Prop where
  sender : Holds t s fun a => a.type = .stream ∧ a.peerId = p ∧ a.ring.Valid udsStreamSize
  peer : Holds t p fun b => b.type = .stream ∧ b.peerId = s ∧ b.ring.Valid udsStreamSize

/-- A pair that has been accepted. -/
structure StreamPair (u : Uds) (s p : ℕ) : Prop where
  matched : Matched u.sockets s p
  sender : Holds u.sockets s fun a => a.state = .established
  peer : Holds u.sockets p fun b => b.state = .established
  lt : p < maxUdsSocketsCount

/-- The bytes were appended to the queue of `p`, and no other socket has changed. -/
structure ReachesOnly (u u' : Uds) (p : ℕ) (data : List UInt8) : Prop where
  appended : ∃ b b', u.sockets p = some b ∧ u'.sockets p = some b' ∧
    b'.ring.contents udsStreamSize = b.ring.contents udsStreamSize ++ data
  other : ∀ i ≠ p, u'.sockets i = u.sockets i

/-- The first socket of the table with the path is `p`; all entries in front of it are in use. -/
def Uds.FirstAt (u : Uds) (path : List UInt8) (p : ℕ) : Prop :=
  (Holds u.sockets p fun b => b.localPath = path) ∧
    ∀ i < p, Holds u.sockets i fun x => x.localPath ≠ path

/-- The path leads to `p`, and its queue has room for the bytes. -/
structure UdsSend.Direct (u : Uds) (s p : ℕ) (c : UdsSend) : Prop where
  first : Holds u.sockets s fun a => u.FirstAt (c.destAddr.getD a.remotePath) p
  room : Holds u.sockets p fun b => c.len ≤ udsStreamSize - 1 - b.ring.count udsStreamSize

/-! ## The receiver -/

section Receiver

variable {u u' : Uds} {path : List UInt8} {p q : ℕ} {data : ℕ → UInt8} {len : ℕ}

/-- What the loop has found from the entry `i` on. -/
theorem findLocalLoop_eq_some {sockets : ℕ → Option UdsTupleStream} (rest i : ℕ) :
    findLocalLoop sockets path rest i = some (some q) ↔
      i ≤ q ∧ q < i + rest ∧ (Holds sockets q fun b => b.localPath = path) ∧
        ∀ j, i ≤ j → j < q → Holds sockets j fun x => x.localPath ≠ path := by
  induction rest generalizing i with
  | zero =>
    constructor
    · intro h
      cases h
    · intro h
      omega
  | succ rest ih =>
    rw [findLocalLoop]
    cases hi : sockets i with
    | none =>
      simp only [reduceCtorEq, false_iff]
      rintro ⟨hiq, -, ⟨b, hb, -⟩, hbefore⟩
      -- the null pointer stands in front of the socket that is looked for
      rcases Nat.eq_or_lt_of_le hiq with rfl | hlt
      · simp [hi] at hb
      · obtain ⟨x, hx, -⟩ := hbefore i le_rfl hlt
        simp [hi] at hx
    | some tmp =>
      dsimp only
      split
      · rename_i hpath
        constructor
        · intro h
          obtain rfl : i = q := by simpa using h
          exact ⟨le_rfl, by omega, ⟨tmp, hi, hpath⟩, fun j hij hji => by omega⟩
        · rintro ⟨hiq, -, -, hbefore⟩
          rcases Nat.eq_or_lt_of_le hiq with rfl | hlt
          · rfl
          · obtain ⟨x, hx, hne⟩ := hbefore i le_rfl hlt
            cases hi.symm.trans hx
            exact absurd hpath hne
      · rename_i hpath
        rw [ih]
        constructor
        · rintro ⟨hiq, hq, hb, hbefore⟩
          refine ⟨by omega, by omega, hb, fun j hij hjq => ?_⟩
          rcases Nat.eq_or_lt_of_le hij with rfl | hlt
          · exact ⟨tmp, hi, hpath⟩
          · exact hbefore j hlt hjq
        · rintro ⟨hiq, hq, ⟨b, hb, hbp⟩, hbefore⟩
          have hne : i ≠ q := by
            rintro rfl
            cases hi.symm.trans hb
            exact hpath hbp
          exact ⟨by omega, by omega, ⟨b, hb, hbp⟩, fun j hij hjq => hbefore j (by omega) hjq⟩

/-- **The receiver** of a path is the first socket with this path. -/
theorem findSocketUdsWithLocalAddr_eq :
    u.findSocketUdsWithLocalAddr path = some (some q) ↔
      q < maxUdsSocketsCount ∧ u.FirstAt path q := by
  rw [findSocketUdsWithLocalAddr, findLocalLoop_eq_some, Uds.FirstAt]
  simp

theorem handleUds_other (hfind : u.findSocketUdsWithLocalAddr path = some (some q))
    (h : u.handleUds q data len = some u') {i : ℕ} (hi : i ≠ q) : u'.sockets i = u.sockets i := by
  obtain ⟨-, ⟨tup, htup, hpath⟩, -⟩ := findSocketUdsWithLocalAddr_eq.mp hfind
  rw [handleUds, htup] at h
  dsimp only at h
  split at h
  · -- a datagram socket is looked up by its path again
    rw [handleDgramPacket, hpath, hfind] at h
    split at h
    · cases h
      rfl
    · cases h
      exact modify_of_ne hi
  · split at h
    · cases h
      rw [handleStreamEstablishedPacket]
      split
      · rfl
      · rw [resume_sockets]
        exact modify_of_ne hi
    · cases h
      rfl
  · cases h
    rfl

theorem handleUds_stream (data : ℕ → UInt8) (len : ℕ) (hb : u.sockets q = some b)
    (htype : b.type = .stream) (hstate : b.state = .established) :
    ∃ u', u.handleUds q data len = some u' ∧ u'.sockets q =
      some { b with ring := (fifoWrite8 udsStreamSize b.ring len data).ring } := by
  refine ⟨u.handleStreamEstablishedPacket b q data len, ?_, ?_⟩
  · rw [handleUds, hb]
    dsimp only
    rw [htype]
    rw [hstate]
  · rw [handleStreamEstablishedPacket, if_neg (by simp [htype, hstate]), resume_sockets,
      socketAppend, sockets_modifySock, modify_self, hb]
    rfl

/-- **A send by path** reaches the connected socket `p` alone exactly if it is the receiver of the
path and has room. -/
theorem dispatchTo_reachesOnly_iff (hb : u.sockets p = some b) (htype : b.type = .stream)
    (hstate : b.state = .established) (hvalid : b.ring.Valid udsStreamSize)
    (hp : p < maxUdsSocketsCount) (hlen : len ≠ 0) :
    (∃ u', u.dispatchTo data len path = some u' ∧ ReachesOnly u u' p (cells len data)) ↔
      u.FirstAt path p ∧ len ≤ udsStreamSize - 1 - b.ring.count udsStreamSize := by
  have hs : udsStreamSize < 2 ^ 64 := by decide
  obtain ⟨-, -, hcontents⟩ := fifoWrite_spec hs hvalid len data
  obtain ⟨u1, hu1, hsock⟩ := handleUds_stream data len hb htype hstate
  constructor
  · rintro ⟨u', hu', ⟨b0, b', hb0, hb', happ⟩, -⟩
    cases hb.symm.trans hb0
    -- the bytes are in the queue of `p`, so `p` is not left as it was
    have hchanged : u'.sockets p ≠ u.sockets p := by
      intro heq
      rw [hb', hb] at heq
      cases heq
      have := congrArg List.length happ
      rw [List.length_append, length_cells] at this
      omega
    have hfind : u.findSocketUdsWithLocalAddr path = some (some p) := by
      rw [dispatchTo] at hu'
      split at hu'
      · cases hu'
      · cases hu'
        exact absurd rfl hchanged
      · rename_i q hq
        by_contra hne
        refine hchanged (handleUds_other hq hu' ?_)
        rintro rfl
        exact hne hq
    rw [dispatchTo, hfind] at hu'
    obtain rfl : u1 = u' := Option.some.inj (hu1.symm.trans hu')
    refine ⟨(findSocketUdsWithLocalAddr_eq.mp hfind).2, ?_⟩
    cases hsock.symm.trans hb'
    have hlength := congrArg List.length (hcontents.symm.trans happ)
    simp only [List.length_append, length_cells] at hlength
    omega
  · rintro ⟨hfirst, hroom⟩
    have hfind := findSocketUdsWithLocalAddr_eq.mpr ⟨hp, hfirst⟩
    refine ⟨u1, by rw [dispatchTo, hfind]; exact hu1, ⟨b, _, hb, hsock, ?_⟩, fun i hi => ?_⟩
    · rw [Nat.min_eq_left hroom] at hcontents
      exact hcontents
    · exact handleUds_other hfind hu1 hi

end Receiver

/-! ## Sends -/

section Sends

variable {u : Uds} {s p : ℕ}

theorem UdsSend.apply_eq {c : UdsSend} (hon : c.On u s) {a : UdsTupleStream}
    (ha : u.sockets s = some a) (htype : a.type = .stream) (hstate : a.state = .established) :
    c.apply u = u.dispatchTo c.buf c.len (c.destAddr.getD a.remotePath) := by
  cases c with
  | sendto pid sockfd buf len destAddr =>
    obtain ⟨-, hres⟩ := hon
    cases destAddr with
    | some path => rfl
    | none =>
      simp only [apply, sysSendto, hres, ha]
      rfl
  | established socketId payload payloadLen =>
    obtain rfl : socketId = s := hon
    rw [apply, sendStreamEstablishedPacket, ha]
    dsimp only
    rw [if_neg (by simp [htype, hstate]), udsSendDispatch, ha]
    rfl

/-- **A send reaches the peer alone exactly if the path leads to it**: the path used is the
`local_path` of the other end, the entries in front of it are in use by sockets with other paths,
and its queue has room. -/
theorem reachesOnly_iff_direct (hpair : StreamPair u s p) {c : UdsSend} (hon : c.On u s)
    (hlen : c.len ≠ 0) :
    (∃ u', c.apply u = some u' ∧ ReachesOnly u u' p (cells c.len c.buf)) ↔ c.Direct u s p := by
  obtain ⟨a, ha, hatype, -⟩ := hpair.matched.sender
  obtain ⟨a', ha', hastate⟩ := hpair.sender
  cases ha.symm.trans ha'
  obtain ⟨b, hb, hbtype, -, hvalid⟩ := hpair.matched.peer
  obtain ⟨b', hb', hbstate⟩ := hpair.peer
  cases hb.symm.trans hb'
  rw [UdsSend.apply_eq hon ha hatype hastate,
    dispatchTo_reachesOnly_iff hb hbtype hbstate hvalid hpair.lt hlen]
  constructor
  · rintro ⟨hfirst, hroom⟩
    exact ⟨⟨a, ha, hfirst⟩, ⟨b, hb, hroom⟩⟩
  · rintro ⟨⟨x, hx, hfirst⟩, ⟨y, hy, hroom⟩⟩
    cases ha.symm.trans hx
    cases hb.symm.trans hy
    exact ⟨hfirst, hroom⟩

end Sends

/-! ## A client and its server -/

/-- The thread sleeps in an accept, the client connects, and the accept returns. -/
def connectOne : List StreamCall :=
  [.accept 0 0, .sleep 0, .connect 1 [0x73] fun _ => 0, .resume 0]

/-- A connected stream socket without paths, whose queue is empty. -/
def UdsTupleStream.Unnamed (a : UdsTupleStream) (peer : ℕ) : Prop :=
  (a.type = .stream ∧ a.peerId = peer ∧ a.ring.Valid udsStreamSize) ∧ a.state = .established ∧
    a.localPath = [] ∧ a.remotePath = [] ∧ a.ring.count udsStreamSize = 0

instance (a : UdsTupleStream) (peer : ℕ) : Decidable (a.Unnamed peer) :=
  inferInstanceAs (Decidable (_ ∧ _))

theorem connectOne_sockets : ∃ st, Run StreamCall.apply (fun _ _ => True) twoClients connectOne st ∧
    (Holds st.uds.sockets 0 fun x => x.localPath = [0x73]) ∧
    (Holds st.uds.sockets 1 fun a => a.Unnamed 3) ∧
      Holds st.uds.sockets 3 fun b => b.Unnamed 1 := by
  exact Run.exists_of_eval (by decide +kernel) fun _ _ h => h

theorem StreamPair.of_unnamed {u : Uds} {s p : ℕ} (hs : Holds u.sockets s fun a => a.Unnamed p)
    (hp : Holds u.sockets p fun b => b.Unnamed s) (hlt : p < maxUdsSocketsCount) :
    StreamPair u s p := by
  obtain ⟨a, ha, hmatch, hstate, -⟩ := hs
  obtain ⟨b, hb, hmatch', hstate', -⟩ := hp
  exact ⟨⟨⟨a, ha, hmatch⟩, ⟨b, hb, hmatch'⟩⟩, ⟨a, ha, hstate⟩, ⟨b, hb, hstate'⟩, hlt⟩

/-- What the server sends reaches the client, which is the first socket without a path. -/
theorem reachesOnly_iff_direct_server : ∃ st u',
    Run StreamCall.apply (fun _ _ => True) twoClients connectOne st ∧ StreamPair st.uds 3 1 ∧
    (UdsSend.established 3 (fun _ => 7) 1).apply st.uds = some u' ∧
      ReachesOnly st.uds u' 1 [7] := by
  obtain ⟨st, hrun, ⟨x, hx, hpath⟩, h1, h3⟩ := connectOne_sockets
  have hpair : StreamPair st.uds 3 1 := .of_unnamed h3 h1 (by decide)
  obtain ⟨a, ha, -, -, halocal, -, hcount⟩ := h1
  obtain ⟨b, hb, -, -, -, hbremote, -⟩ := h3
  have hfirst : st.uds.FirstAt [] 1 := by
    refine ⟨⟨a, ha, halocal⟩, fun i hi => ?_⟩
    obtain rfl : i = 0 := by omega
    exact ⟨x, hx, by simp [hpath]⟩
  have hdirect : (UdsSend.established 3 (fun _ => 7) 1).Direct st.uds 3 1 := by
    refine ⟨⟨b, hb, ?_⟩, ⟨a, ha, ?_⟩⟩
    · dsimp only
      rw [hbremote]
      exact hfirst
    · dsimp only
      rw [hcount]
      decide
  have hon : (UdsSend.established 3 (fun _ => 7) 1).On st.uds 3 := rfl
  obtain ⟨u', hu', hreaches⟩ := (reachesOnly_iff_direct hpair hon (by decide)).mpr hdirect
  exact ⟨st, u', hrun, hpair, hu', hreaches⟩

/-- **A client gets its own bytes.** What socket 1 sends goes to the first socket without a path,
which is socket 1 itself, and not to socket 3, as which its connection was accepted. -/
theorem client_gets_own_bytes : ∃ st,
    Run StreamCall.apply (fun _ _ => True) twoClients connectOne st ∧ StreamPair st.uds 1 3 ∧
    (UdsSend.established 1 (fun _ => 7) 1).On st.uds 1 ∧
    ¬∃ u', (UdsSend.established 1 (fun _ => 7) 1).apply st.uds = some u' ∧
      ReachesOnly st.uds u' 3 [7] := by
  obtain ⟨st, hrun, -, h1, h3⟩ := connectOne_sockets
  have hpair : StreamPair st.uds 1 3 := .of_unnamed h1 h3 (by decide)
  refine ⟨st, hrun, hpair, rfl, fun hreach => ?_⟩
  obtain ⟨a, ha, ⟨htype, -⟩, hstate, halocal, haremote, -⟩ := h1
  obtain ⟨b, hb, ⟨htype', -, hvalid⟩, hstate', -⟩ := h3
  have hon : (UdsSend.established 1 (fun _ => 7) 1).On st.uds 1 := rfl
  rw [UdsSend.apply_eq hon ha htype hstate] at hreach
  obtain ⟨⟨-, hbefore⟩, -⟩ :=
    (dispatchTo_reachesOnly_iff hb htype' hstate' hvalid hpair.lt (by decide)).mp hreach
  -- the client stands in front of its server, and has the path too
  obtain ⟨x, hx, hne⟩ := hbefore 1 (by decide)
  cases ha.symm.trans hx
  exact hne (halocal.trans haremote.symm)

end CarrotOS
