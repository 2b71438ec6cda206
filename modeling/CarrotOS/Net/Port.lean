import CarrotOS.Lib.Run
import CarrotOS.Lib.Table
import CarrotOS.Net.TcpSend

/-!
# Local ports

`sys_bind` asks `port_in_use` before it gives a socket an address and a port, and a socket that
sends without a port gets one from `allocate_random_high_port`, which asks the same question for the
address `INADDR_ANY`. The question overlooks sockets: it looks at the first 4096 entries of a table
of 5120, and it finds a socket on another address only if that socket is bound to any address, not
if the new one is. The counter of the high ports is a 16-bit word that wraps from 65535 to 0,
because the test which should start it again at 49152 never holds.
-/

namespace CarrotOS

open Word Bytes Table Transition Function Option

variable {addrlen pid r sockfd uds : ℕ}

/-! ## The code -/

/-- `create_socket_udp`; `block` is what the fresh blocks hold. An entry whose socket has the
version 0 is taken like a free one, and only an eighth of the table is tried. -/
def createSocketUdp (block : Sock) (net : Net) (tuple : NetTuple) : Net × ℕ :=
  if (List.range maxSocketsCount).any fun i =>
      (net.sockets i).map (fun s => s.toNetTuple) == some tuple then
    (net, noId)
  else
    match (List.range (maxSocketsCount / 8)).find? fun i =>
      !(net.sockets i).any fun s => s.version != 0 with
    | none => (net, maxSocketsCount / 8)
    | some i =>
      let newTuple := { tuple with
        state := .established, protocol := .udp, version := 4, head := 0, tail := 0
        receiveBlocking := true }
      ({ net with sockets := update net.sockets i (some { block with
          toNetTupleTcp := { block.toNetTupleTcp with toNetTuple := newTuple } }) }, i)

/-- The tuple that `sys_socket` hands to the two functions, also for a UDP socket. -/
def freshTuple : NetTupleTcp :=
  { (default : NetTupleTcp) with protocol := .tcp }

/-- `struct sockaddr`, with the port and the address in the order of the network; `ntohs` and
`ntohl` are `byteSwap 2` and `byteSwap 4`. -/
structure SockAddr where
  sinFamily : ℕ
  sinPort : ℕ
  sinAddr : ℕ
  deriving DecidableEq, Repr

def afInet : ℕ := 2

def eAddrInUse : ℕ := 98

/-- `sys_bind`. The branch of the other families has the result `uds` and leaves these tables. -/
def sysBind (net : Net) (pid sockfd : ℕ) (addr : Option SockAddr) (addrlen uds : ℕ) :
    Option (Net × ℕ) :=
  let file := net.fds pid sockfd
  if maxFd ≤ sockfd ∨ (file.type ≠ .socket ∧ file.type ≠ .socketUds) then some (net, errno eBadf)
  else
    match addr with
    | none => some (net, errno eInval)
    | some addr =>
      -- the address is compared where the family is meant
      if addrlen < 16 ∧ addr.sinAddr = afInet then some (net, errno eInval)
      else if addr.sinFamily ≠ afInet then some (net, uds)
      else
        match net.sockets file.resId with
        | none => none
        | some tuple =>
          if portInUse net (byteSwap 4 addr.sinAddr) (byteSwap 2 addr.sinPort) tuple.protocol then
            some (net, errno eAddrInUse)
          else
            some (net.modifySock file.resId fun s => { s with
              localIpL := byteSwap 4 addr.sinAddr, localPort := byteSwap 2 addr.sinPort }, 0)

/-- A socket that has no port gets one from `allocate_random_high_port`. -/
def assignHighPort (net : Net) (id : ℕ) (protocol : Protocol) : Option Net :=
  match net.sockets id with
  | none => none
  | some s =>
    if s.localPort = 0 then
      let (net, port) := allocateRandomHighPort net protocol
      some (net.modifySock id fun s => { s with localPort := port })
    else some net

variable {net net' : Net} {id ip port n rest : ℕ} {protocol : Protocol} {a b s s' t : Sock}

/-! ## The question -/

/-- `port_in_use` looks at the entry `j`, and sees a socket of the protocol on the address or on any
address. -/
def Sees (protocol : Protocol) (ip j : ℕ) (t : Sock) : Prop :=
  j < 4096 ∧ t.protocol = protocol ∧ (t.localIpL = ip ∨ t.localIpL = 0)

/-- **What `port_in_use` computes.** -/
theorem portInUse_iff : portInUse net ip port protocol = true ↔
    ∃ j t, net.sockets j = some t ∧ Sees protocol ip j t ∧ t.localPort = port := by
  rw [portInUse, List.any_eq_true]
  constructor
  · rintro ⟨j, hj, hsees⟩
    cases ht : net.sockets j with
    | none => simp [ht] at hsees
    | some t =>
      simp only [ht, Bool.and_eq_true, Bool.or_eq_true, beq_iff_eq] at hsees
      exact ⟨j, t, ht, ⟨List.mem_range.mp hj, hsees.1.1, hsees.2⟩, hsees.1.2⟩
  · rintro ⟨j, t, ht, ⟨hj, hprotocol, hip⟩, hport⟩
    refine ⟨j, List.mem_range.mpr hj, ?_⟩
    simp [ht, hprotocol, hport, hip]

/-! ## The law -/

/-- The sockets share a port: the same protocol and the same port other than 0, on one address or
with one of them on any address. -/
def Clash (a b : Sock) : Prop :=
  a.protocol = b.protocol ∧ a.localPort = b.localPort ∧ a.localPort ≠ 0 ∧
    (a.localIpL = b.localIpL ∨ a.localIpL = 0 ∨ b.localIpL = 0)

theorem Clash.symm (h : Clash a b) : Clash b a := by
  obtain ⟨hprotocol, hport, hne, haddr⟩ := h
  refine ⟨hprotocol.symm, hport.symm, hport ▸ hne, ?_⟩
  rcases haddr with heq | ha | hb
  · exact .inl heq.symm
  · exact .inr (.inr ha)
  · exact .inr (.inl hb)

def PortsApart (net : Net) : Prop :=
  Pairwise maxSocketsCount (fun a b => ¬ Clash a b) net.sockets

theorem portsApart_update (h : PortsApart net)
    (hsockets : net'.sockets = update net.sockets id (some s)) :
    PortsApart net' ↔ (id < maxSocketsCount → ∀ j < maxSocketsCount, j ≠ id → ∀ t,
      net.sockets j = some t → ¬ Clash s t) := by
  rw [PortsApart, hsockets]
  exact pairwise_update (fun _ _ hab hba => hab hba.symm) h

/-- No socket that `port_in_use` overlooks shares a port with the socket that `id` becomes. -/
def NoneOverlooked (net : Net) (id : ℕ) (protocol : Protocol) (ip : ℕ) (s' : Sock) : Prop :=
  id < maxSocketsCount → ∀ j < maxSocketsCount, j ≠ id → ∀ t, net.sockets j = some t →
    ¬ Sees protocol ip j t → ¬ Clash s' t

/-- **New addresses**, after `port_in_use` has been asked: they keep the ports apart exactly if no
socket is overlooked. -/
theorem portsApart_set (s' : Sock) (h : PortsApart net)
    (hfree : portInUse net ip s'.localPort protocol = false)
    (hsockets : net'.sockets = update net.sockets id (some s')) :
    PortsApart net' ↔ NoneOverlooked net id protocol ip s' := by
  rw [portsApart_update h hsockets]
  constructor
  · intro hnone hid j hj hne t ht _
    exact hnone hid j hj hne t ht
  · intro hover hid j hj hne t ht hclash
    by_cases hsees : Sees protocol ip j t
    · -- a socket that is seen would have been found
      have hused := portInUse_iff.mpr ⟨j, t, ht, hsees, hclash.2.1.symm⟩
      cases hfree.symm.trans hused
    · exact hover hid j hj hne t ht hsees hclash

/-! ## The search for a high port -/

theorem advancePort_eq (net : Net) :
    advancePort net = { net with nextEphemeralPort := u16 (net.nextEphemeralPort + 1) } := by
  have hlt : u16 (net.nextEphemeralPort + 1) < 65536 := Nat.mod_lt _ (by decide)
  rw [advancePort, if_neg (by omega)]

/-- The search comes to its `n`-th port, which is not in use. -/
def FirstFree (net : Net) (protocol : Protocol) (tries n : ℕ) : Prop :=
  n < tries ∧ (∀ m < n, portInUse net 0 (u16 (net.nextEphemeralPort + m)) protocol = true) ∧
    portInUse net 0 (u16 (net.nextEphemeralPort + n)) protocol = false

theorem FirstFree.unique {n' : ℕ} (h : FirstFree net protocol rest n)
    (h' : FirstFree net protocol rest n') :
    n = n' := by
  rcases Nat.lt_trichotomy n n' with hlt | heq | hgt
  · cases h.2.2.symm.trans (h'.2.1 n hlt)
  · exact heq
  · cases h'.2.2.symm.trans (h.2.1 n' hgt)

theorem u16_next (hnext : net.nextEphemeralPort < 65536) :
    u16 (net.nextEphemeralPort + 0) = net.nextEphemeralPort :=
  Nat.mod_eq_of_lt hnext

/-- **What the search does**: it ends at the first port that is not in use, or with 0. -/
theorem allocatePortLoop_cases (hnext : net.nextEphemeralPort < 65536) :
    (allocatePortLoop net protocol rest).1.sockets = net.sockets ∧
      (allocatePortLoop net protocol rest).1.nextEphemeralPort < 65536 ∧
      ((∃ n, FirstFree net protocol rest n ∧
          (allocatePortLoop net protocol rest).2 = u16 (net.nextEphemeralPort + n)) ∨
        (∀ n, ¬ FirstFree net protocol rest n) ∧ (allocatePortLoop net protocol rest).2 = 0) := by
  induction rest generalizing net with
  | zero => exact ⟨rfl, hnext, .inr ⟨fun n h => absurd h.1 (Nat.not_lt_zero n), rfl⟩⟩
  | succ rest ih =>
    have hsucc : u16 (net.nextEphemeralPort + 1) < 65536 := Nat.mod_lt _ (by decide)
    have hshift :
      ∀ m, u16 (u16 (net.nextEphemeralPort + 1) + m) = u16 (net.nextEphemeralPort + (m + 1)) := by
      intro m
      rw [u16, u16, u16, Nat.mod_add_mod]
      congr 1
      omega
    have hasked : portInUse (advancePort net) 0 net.nextEphemeralPort protocol =
        portInUse net 0 (u16 (net.nextEphemeralPort + 0)) protocol := by
      rw [u16_next hnext, advancePort_eq]
      rfl
    rw [allocatePortLoop, hasked]
    by_cases hused : portInUse net 0 (u16 (net.nextEphemeralPort + 0)) protocol = true
    · -- the port is in use: the rest of the search is about the ports behind it
      rw [if_pos hused, advancePort_eq]
      obtain ⟨hsockets, hlt, hport⟩ :=
        @ih { net with nextEphemeralPort := u16 (net.nextEphemeralPort + 1) } hsucc
      have hfree : ∀ n, FirstFree { net with nextEphemeralPort := u16 (net.nextEphemeralPort + 1) }
          protocol rest n ↔ FirstFree net protocol (rest + 1) (n + 1) := by
        intro n
        simp only [FirstFree, hshift]
        constructor
        · rintro ⟨hn, hall, hfirst⟩
          refine ⟨by omega, fun m hm => ?_, hfirst⟩
          cases m with
          | zero => exact hused
          | succ m => exact hall m (by omega)
        · rintro ⟨hn, hall, hfirst⟩
          exact ⟨by omega, fun m hm => hall (m + 1) (by omega), hfirst⟩
      refine ⟨hsockets, hlt, ?_⟩
      rcases hport with ⟨n, hn, hport⟩ | ⟨hnone, hport⟩
      · exact .inl ⟨n + 1, (hfree n).mp hn, hport.trans (hshift n)⟩
      · refine .inr ⟨fun n hn => ?_, hport⟩
        cases n with
        | zero => exact absurd (hn.2.2.symm.trans hused) (by decide)
        | succ n => exact hnone n ((hfree n).mpr hn)
    · have hfree : portInUse net 0 (u16 (net.nextEphemeralPort + 0)) protocol = false := by
        simpa using hused
      rw [if_neg hused, advancePort_eq]
      refine ⟨rfl, hsucc,
        .inl ⟨0, ⟨by omega, fun m hm => absurd hm (Nat.not_lt_zero m), hfree⟩, ?_⟩⟩
      exact (u16_next hnext).symm

/-- `HIGH_PORT_END - HIGH_PORT_START`, the number of ports that are tried. -/
def highPortTries : ℕ := 65535 - 49152

theorem allocateRandomHighPort_eq (net : Net) (protocol : Protocol) :
    allocateRandomHighPort net protocol = allocatePortLoop net protocol highPortTries := by
  rw [allocateRandomHighPort, highPortTries]

/-! ## A bind -/

/-- The bind gives the socket `s` of the descriptor the address `addr'`. -/
structure Binds (net : Net) (pid sockfd : ℕ) (addr : Option SockAddr) (addrlen : ℕ)
    (addr' : SockAddr) (s : Sock) : Prop where
  descriptor : sockfd < maxFd
  type : (net.fds pid sockfd).type = .socket ∨ (net.fds pid sockfd).type = .socketUds
  addr_eq : addr = some addr'
  length : ¬ (addrlen < 16 ∧ addr'.sinAddr = afInet)
  family : addr'.sinFamily = afInet
  socket : net.sockets (net.fds pid sockfd).resId = some s
  free : portInUse net (byteSwap 4 addr'.sinAddr) (byteSwap 2 addr'.sinPort) s.protocol = false

def Sock.bound (s : Sock) (addr : SockAddr) : Sock :=
  { s with localIpL := byteSwap 4 addr.sinAddr, localPort := byteSwap 2 addr.sinPort }

/-- **What `sys_bind` does**: it leaves the tables, or it binds the socket. -/
theorem sysBind_cases {addr : Option SockAddr}
    (hbind : sysBind net pid sockfd addr addrlen uds = some (net', r)) :
    (net' = net ∧ ∀ addr' s, ¬ Binds net pid sockfd addr addrlen addr' s) ∨
      ∃ addr' s, Binds net pid sockfd addr addrlen addr' s ∧
        net' = net.modifySock (net.fds pid sockfd).resId fun s => s.bound addr' := by
  unfold sysBind at hbind
  dsimp only at hbind
  split_ifs at hbind with hfd
  · refine .inl ⟨(Prod.mk.inj (some.inj hbind)).1.symm, fun addr' s hb => ?_⟩
    rcases hfd with hge | hother
    · exact absurd hb.descriptor (Nat.not_lt.mpr hge)
    · exact absurd hb.type (not_or.mpr hother)
  · cases addr with
    | none => exact .inl ⟨(Prod.mk.inj (some.inj hbind)).1.symm, fun _ _ hb => nomatch hb.addr_eq⟩
    | some addr =>
      dsimp only at hbind
      -- the address of a bind that goes through is the argument
      have harg : ∀ addr' s, Binds net pid sockfd (some addr) addrlen addr' s → addr = addr' :=
        fun _ _ hb => some.inj hb.addr_eq
      split_ifs at hbind with hshort hfamily
      · refine .inl ⟨(Prod.mk.inj (some.inj hbind)).1.symm, fun addr' s hb => ?_⟩
        obtain rfl := harg addr' s hb
        exact hb.length hshort
      · refine .inl ⟨(Prod.mk.inj (some.inj hbind)).1.symm, fun addr' s hb => ?_⟩
        obtain rfl := harg addr' s hb
        exact hfamily hb.family
      · cases hs : net.sockets (net.fds pid sockfd).resId with
        | none =>
          rw [hs] at hbind
          cases hbind
        | some s =>
          rw [hs] at hbind
          dsimp only at hbind
          split_ifs at hbind with hused
          · refine .inl ⟨(Prod.mk.inj (some.inj hbind)).1.symm, fun addr' s' hb => ?_⟩
            obtain rfl := harg addr' s' hb
            cases hs.symm.trans hb.socket
            cases hb.free.symm.trans hused
          · refine .inr ⟨addr, s, ⟨?_, ?_, rfl, hshort, not_not.mp hfamily, hs, ?_⟩, ?_⟩
            · exact Nat.lt_of_not_le fun hge => hfd (.inl hge)
            · by_contra hnot
              exact hfd (.inr (not_or.mp hnot))
            · simpa using hused
            · exact (Prod.mk.inj (some.inj hbind)).1.symm

/-! ## Runs -/

/-- The calls. `setFd` stands for all that the rest of the kernel does with descriptors. -/
inductive PortCall
  | socketTcp (env : Env)
  | socketUdp (block : Sock)
  | setFd (pid fd : ℕ) (file : FileInner)
  | sysBind (pid sockfd : ℕ) (addr : Option SockAddr) (addrlen uds : ℕ)
  | chooseLocalIp (env : Env) (id : ℕ)
  | assignHighPort (id : ℕ) (protocol : Protocol)

namespace PortCall

def apply (net : Net) : PortCall → Option Net
  | socketTcp env => some (createSocketTcp env net freshTuple).1
  | socketUdp block => some (createSocketUdp block net freshTuple.toNetTuple).1
  | setFd pid fd file =>
    some { net with fds := update net.fds pid (update (net.fds pid) fd file) }
  | sysBind pid sockfd addr addrlen uds =>
    (CarrotOS.sysBind net pid sockfd addr addrlen uds).map Prod.fst
  | chooseLocalIp env id => some (CarrotOS.chooseLocalIp env net id)
  | assignHighPort id protocol => CarrotOS.assignHighPort net id protocol

/-- The port that a call gets from `allocate_random_high_port` is a high port, or 0. -/
def InRange (net : Net) : PortCall → Prop
  | assignHighPort id protocol => ∀ s, net.sockets id = some s → s.localPort = 0 →
    (allocateRandomHighPort net protocol).2 = 0 ∨
      49152 ≤ (allocateRandomHighPort net protocol).2 ∧
      (allocateRandomHighPort net protocol).2 ≤ 65535
  | _ => True

/-- The condition under which a call keeps the law: no socket that `port_in_use` overlooks shares
the port, and the counter has not run into the low ports. -/
def Harmless (net : Net) : PortCall → Prop
  | sysBind pid sockfd addr addrlen _ => ∀ addr' s, Binds net pid sockfd addr addrlen addr' s →
    NoneOverlooked net (net.fds pid sockfd).resId s.protocol (byteSwap 4 addr'.sinAddr)
    (s.bound addr')
  | assignHighPort id protocol => ∀ s, net.sockets id = some s → s.localPort = 0 →
    ∀ n, FirstFree net protocol highPortTries n →
      (u16 (net.nextEphemeralPort + n) = 0 ∨ 49152 ≤ u16 (net.nextEphemeralPort + n)) ∧
        NoneOverlooked net id protocol 0 { s with localPort := u16 (net.nextEphemeralPort + n) }
  | _ => True

end PortCall

theorem not_clash_of_zero (h : a.localPort = 0) : ¬ Clash a b :=
  fun hclash => hclash.2.2.1 h

theorem portsApart_create (s : Sock) (h : PortsApart net) (hport : s.localPort = 0)
    (hsockets : net'.sockets = update net.sockets id (some s)) : PortsApart net' :=
  (portsApart_update h hsockets).mpr fun _ _ _ _ _ _ => not_clash_of_zero hport

theorem portsApart_socketTcp (env : Env) (h : PortsApart net) :
    PortsApart (createSocketTcp env net freshTuple).1 := by
  unfold createSocketTcp
  split_ifs
  · exact h
  · split
    · exact h
    · exact portsApart_create _ h rfl rfl

theorem portsApart_socketUdp (block : Sock) (h : PortsApart net) :
    PortsApart (createSocketUdp block net freshTuple.toNetTuple).1 := by
  unfold createSocketUdp
  split_ifs
  · exact h
  · split
    · exact h
    · exact portsApart_create _ h rfl rfl

theorem portsApart_chooseLocalIp (env : Env) (h : PortsApart net) :
    PortsApart (chooseLocalIp env net id) := by
  cases hs : net.sockets id with
  | none =>
    have hsame : (chooseLocalIp env net id).sockets = net.sockets := by
      rw [chooseLocalIp, Net.modifySock, hs, map_none]
      exact update_eq_self_iff.mpr hs.symm
    rw [PortsApart, hsame]
    exact h
  | some s =>
    have hsockets : (chooseLocalIp env net id).sockets = update net.sockets id (some { s with
        localIpL := if s.localIpL = 0 then env.nicIp else s.localIpL }) := by
      rw [chooseLocalIp, Net.modifySock, hs, map_some]
    rw [portsApart_update h hsockets]
    rintro hid j hj hne t ht ⟨hprotocol, hport, hzero, haddr⟩
    refine h id hid j hj (Ne.symm hne) s t hs ht ⟨hprotocol, hport, hzero, ?_⟩
    by_cases hany : s.localIpL = 0
    · exact .inr (.inl hany)
    · simpa [hany] using haddr

/-- **A bind** keeps the ports apart exactly if it is harmless. -/
theorem portsApart_sysBind {addr : Option SockAddr} (h : PortsApart net)
    (hbind : sysBind net pid sockfd addr addrlen uds = some (net', r)) :
    PortsApart net' ↔ (PortCall.sysBind pid sockfd addr addrlen uds).Harmless net := by
  rcases sysBind_cases hbind with ⟨rfl, hnot⟩ | ⟨addr', s, hb, rfl⟩
  · exact iff_of_true h fun addr' s hb => absurd hb (hnot addr' s)
  · have hsockets : (net.modifySock (net.fds pid sockfd).resId fun s => s.bound addr').sockets =
        update net.sockets (net.fds pid sockfd).resId (some (s.bound addr')) := by
      rw [Net.modifySock, hb.socket, map_some]
    rw [portsApart_set (s.bound addr') h hb.free hsockets]
    constructor
    · intro hover addr'' s' hb'
      cases hb.addr_eq.symm.trans hb'.addr_eq
      cases hb.socket.symm.trans hb'.socket
      exact hover
    · intro hharmless
      exact hharmless addr' s hb

/-- **A port from the high ports** is in range and keeps the ports apart exactly if it is
harmless. -/
theorem portsApart_assignHighPort (h : PortsApart net) (hnext : net.nextEphemeralPort < 65536)
    (hassign : assignHighPort net id protocol = some net') :
    (PortsApart net' ∧ (PortCall.assignHighPort id protocol).InRange net) ↔
      (PortCall.assignHighPort id protocol).Harmless net := by
  cases hs : net.sockets id with
  | none =>
    rw [assignHighPort, hs] at hassign
    cases hassign
  | some s =>
    rw [assignHighPort, hs] at hassign
    dsimp only at hassign
    dsimp only [PortCall.InRange, PortCall.Harmless]
    split_ifs at hassign with hzero
    · have hcases := @allocatePortLoop_cases net highPortTries protocol hnext
      rw [← allocateRandomHighPort_eq] at hcases
      -- from here on the search is what has just been said about it
      generalize allocateRandomHighPort net protocol = r at hassign hcases ⊢
      cases hassign
      obtain ⟨hsockets, -, hport⟩ := hcases
      have hwritten : (r.1.modifySock id fun s => { s with localPort := r.2 }).sockets =
          update net.sockets id (some { s with localPort := r.2 }) := by
        rw [Net.modifySock, hsockets, hs, map_some]
      rcases hport with ⟨n, hn, hport⟩ | ⟨hnone, hport⟩
      · -- the search has come to a port
        have hlt : u16 (net.nextEphemeralPort + n) < 65536 := Nat.mod_lt _ (by decide)
        rw [hport] at hwritten ⊢
        rw [portsApart_set { s with localPort := u16 (net.nextEphemeralPort + n) } h
          hn.2.2 hwritten]
        constructor
        · rintro ⟨hover, hrange⟩ s' hs' hzero' n' hn'
          cases hs.symm.trans hs'
          obtain rfl := hn.unique hn'
          refine ⟨?_, hover⟩
          rcases hrange s hs hzero with hz | hhigh
          · exact .inl hz
          · exact .inr hhigh.1
        · intro hharmless
          obtain ⟨hrange, hover⟩ := hharmless s hs hzero n hn
          refine ⟨hover, fun _ _ _ => ?_⟩
          rcases hrange with hz | hhigh
          · exact .inl hz
          · exact .inr ⟨hhigh, by omega⟩
      · -- all ports were in use
        refine iff_of_true ⟨?_, fun _ _ _ => .inl hport⟩ fun _ _ _ n hn => absurd hn (hnone n)
        exact portsApart_create { s with localPort := r.2 } h hport hwritten
    · cases hassign
      have hport : ∀ s', net.sockets id = some s' → s'.localPort ≠ 0 := by
        rintro s' hs'
        cases hs.symm.trans hs'
        exact hzero
      refine iff_of_true ⟨h, fun s' hs' hz => ?_⟩ fun s' hs' hz => ?_
      · exact absurd hz (hport s' hs')
      · exact absurd hz (hport s' hs')

/-- The counter stays a 16-bit word. -/
theorem nextEphemeralPort_apply {call : PortCall} (hnext : net.nextEphemeralPort < 65536)
    (hcall : call.apply net = some net') : net'.nextEphemeralPort < 65536 := by
  cases call with
  | socketTcp env =>
    obtain rfl := some.inj hcall
    unfold createSocketTcp
    split_ifs
    · exact hnext
    · split <;> exact hnext
  | socketUdp block =>
    obtain rfl := some.inj hcall
    unfold createSocketUdp
    split_ifs
    · exact hnext
    · split <;> exact hnext
  | setFd pid fd file =>
    cases hcall
    exact hnext
  | sysBind pid sockfd addr addrlen uds =>
    obtain ⟨⟨net1, r⟩, hbind, rfl⟩ := map_eq_some_iff.mp hcall
    rcases sysBind_cases hbind with ⟨rfl, -⟩ | ⟨addr', s, -, rfl⟩
    · exact hnext
    · exact hnext
  | chooseLocalIp env id =>
    cases hcall
    exact hnext
  | assignHighPort id protocol =>
    change assignHighPort net id protocol = some net' at hcall
    unfold assignHighPort at hcall
    have hcases := @allocatePortLoop_cases net highPortTries protocol hnext
    rw [← allocateRandomHighPort_eq] at hcases
    generalize allocateRandomHighPort net protocol = r at hcall hcases
    cases hs : net.sockets id with
    | none =>
      rw [hs] at hcall
      cases hcall
    | some s =>
      rw [hs] at hcall
      dsimp only at hcall
      split_ifs at hcall
      · cases hcall
        exact hcases.2.1
      · cases hcall
        exact hnext

/-- **One call**: the law is kept and the port is in range exactly if the call is harmless. -/
theorem portsApart_apply {call : PortCall} (h : PortsApart net)
    (hnext : net.nextEphemeralPort < 65536) (hcall : call.apply net = some net') :
    (PortsApart net' ∧ call.InRange net) ↔ call.Harmless net := by
  cases call with
  | socketTcp env =>
    obtain rfl := some.inj hcall
    exact iff_of_true ⟨portsApart_socketTcp env h, trivial⟩ trivial
  | socketUdp block =>
    obtain rfl := some.inj hcall
    exact iff_of_true ⟨portsApart_socketUdp block h, trivial⟩ trivial
  | setFd pid fd file =>
    cases hcall
    exact iff_of_true ⟨h, trivial⟩ trivial
  | sysBind pid sockfd addr addrlen uds =>
    obtain ⟨⟨net1, r⟩, hbind, rfl⟩ := map_eq_some_iff.mp hcall
    rw [← portsApart_sysBind h hbind]
    exact and_iff_left trivial
  | chooseLocalIp env id =>
    cases hcall
    exact iff_of_true ⟨portsApart_chooseLocalIp env h, trivial⟩ trivial
  | assignHighPort id protocol => exact portsApart_assignHighPort h hnext hcall

/-- **Every run** of harmless calls: after the next one no two sockets share a port, and a port that
it has got is a high port or 0, exactly if it is harmless too. -/
theorem portsApart_iff_harmless {net₀ : Net} {calls : List PortCall} {call : PortCall}
    (h₀ : PortsApart net₀) (hnext₀ : net₀.nextEphemeralPort < 65536)
    (hrun : Run PortCall.apply (fun net call => call.Harmless net) net₀ calls net)
    (hcall : call.apply net = some net') :
    (PortsApart net' ∧ call.InRange net) ↔ call.Harmless net := by
  have hinv : PortsApart net ∧ net.nextEphemeralPort < 65536 := by
    refine hrun.invariant (fun net => PortsApart net ∧ net.nextEphemeralPort < 65536) ?_
      ⟨h₀, hnext₀⟩
    intro net₁ call₁ net₂ hinv hok hcall₁
    exact ⟨((portsApart_apply hinv.1 hinv.2 hcall₁).mpr hok).1,
      nextEphemeralPort_apply hinv.2 hcall₁⟩
  exact portsApart_apply hinv.1 hinv.2 hcall

/-! ## Two sockets -/

/-- No socket yet; the descriptors 0 and 1 of the process 0 are those of the first two. -/
def portStart : Net where
  sockets _ := none
  listens _ := none
  threads _ := none
  fds _ fd := { (default : FileInner) with type := .socket, resId := fd }
  nextIsn := 0x1000
  nextEphemeralPort := 49152
  sent := []

theorem portsApart_portStart : PortsApart portStart :=
  fun _ _ _ _ _ _ _ ha => nomatch ha

theorem localPort_sysBind {addr : SockAddr}
    (hcall : (PortCall.sysBind pid sockfd (some addr) addrlen uds).apply net = some net') {j : ℕ}
    (ht : net'.sockets j = some t) :
    t.localPort = byteSwap 2 addr.sinPort ∨ net.sockets j = some t := by
  obtain ⟨⟨net₁, r⟩, hbind, rfl⟩ := map_eq_some_iff.mp hcall
  rcases sysBind_cases hbind with ⟨rfl, -⟩ | ⟨addr', s, hbinds, rfl⟩
  · exact .inr ht
  · cases hbinds.addr_eq
    by_cases hj : j = (net.fds pid sockfd).resId
    · subst hj
      rw [modifySock_sockets_self] at ht
      obtain ⟨s, -, rfl⟩ := map_eq_some_iff.mp ht
      exact .inl rfl
    · rw [modifySock_sockets_of_ne _ _ _ hj] at ht
      exact .inr ht

/-- Two TCP sockets that are not bound. -/
def twoSockets : Net :=
  { portStart with sockets := fun j =>
      if j < 2 then some { sampleSock .closed with localIpL := 0, localPort := 0 } else none }

/-- The sockets are bound to the ports 80 and 81 of 10.0.0.1. -/
theorem portsApart_iff_harmless_binds : ∃ net net',
    Run PortCall.apply (fun net call => call.Harmless net) twoSockets
      [.sysBind 0 0 (some ⟨afInet, 0x5000, 0x0100000A⟩) 16 0] net ∧
    (PortCall.sysBind 0 1 (some ⟨afInet, 0x5100, 0x0100000A⟩) 16 0).apply net = some net' ∧
    (net'.sockets 0).map (·.localPort) = some 80 ∧ (net'.sockets 1).map (·.localPort) = some 81 ∧
    PortsApart net' := by
  have hnone : ∀ j t, twoSockets.sockets j = some t → t.localPort = 0 := by
    intro j t ht
    simp only [twoSockets] at ht
    split_ifs at ht
    cases ht
    rfl
  have hstart : PortsApart twoSockets := fun _ _ _ _ _ a _ ha _ =>
    not_clash_of_zero (hnone _ a ha)
  obtain ⟨net, hnet, net', hnet', hzero, hone⟩ :
      ∃ net ∈ (PortCall.sysBind 0 0 (some ⟨afInet, 0x5000, 0x0100000A⟩) 16 0).apply twoSockets,
      ∃ net' ∈ (PortCall.sysBind 0 1 (some ⟨afInet, 0x5100, 0x0100000A⟩) 16 0).apply net,
        (net'.sockets 0).map (·.localPort) = some 80 ∧
        (net'.sockets 1).map (·.localPort) = some 81 := by
    decide +kernel
  have hfirst : (PortCall.sysBind 0 0 (some ⟨afInet, 0x5000, 0x0100000A⟩) 16 0).Harmless
      twoSockets := by
    intro addr s _ _ j _ _ t ht _ hclash
    exact hclash.symm.2.2.1 (hnone j t ht)
  have hrun : Run PortCall.apply (fun net call => call.Harmless net) twoSockets _ net :=
    .snoc (.nil _) hfirst hnet
  have hbound : ∀ j t, net.sockets j = some t → t.localPort = 80 ∨ t.localPort = 0 := by
    intro j t ht
    exact (localPort_sysBind hnet ht).imp_right (hnone j t)
  refine ⟨net, net', hrun, hnet', hzero, hone, ?_⟩
  refine ((portsApart_iff_harmless hstart (by decide) hrun hnet').mpr ?_).1
  rintro addr s hbinds _ j _ _ t ht _ ⟨-, hport, -⟩
  cases hbinds.addr_eq
  have h81 : (s.bound ⟨afInet, 0x5100, 0x0100000A⟩).localPort = 81 := rfl
  rcases hbound j t ht with ht' | ht' <;> rw [h81, ht'] at hport <;> cases hport

/-- A socket is bound to port 80 of 10.0.0.1, and then another one to port 80 of any address. -/
theorem bind_shares_port : PortsApart portStart ∧ ∃ net,
    Run PortCall.apply (fun _ _ => True) portStart [.socketTcp resolvedEnv, .socketTcp resolvedEnv,
      .sysBind 0 0 (some ⟨afInet, 0x5000, 0x0100000A⟩) 16 0,
      .sysBind 0 1 (some ⟨afInet, 0x5000, 0⟩) 16 0] net ∧ ¬ PortsApart net := by
  refine ⟨portsApart_portStart, Run.exists_of_eval (Q := fun net =>
    ∃ a ∈ net.sockets 0, ∃ b ∈ net.sockets 1, a.protocol = b.protocol ∧ a.localPort = 80 ∧
      b.localPort = 80 ∧ b.localIpL = 0) (by decide +kernel) ?_⟩
  rintro net - ⟨a, ha, b, hb, hprotocol, haport, hbport, hany⟩ hlaw
  refine hlaw 0 (by decide) 1 (by decide) (by decide) a b ha hb
    ⟨hprotocol, haport.trans hbport.symm, ?_, .inr (.inr hany)⟩
  rw [haport]
  decide

end CarrotOS
