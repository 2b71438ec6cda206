import CarrotOS.Lib.Run
import CarrotOS.Net.Syscall
import CarrotOS.Net.View

/-!
# FIN bookkeeping

A socket that is closing on our side should have sent a FIN with the sequence number before its
current one, and a FIN that cannot be sent should leave its socket open. `sys_shutdown` and
`tcp_send_fin` keep this only under strong conditions: `tcp_send_fin` reads the result of the
transmission the wrong way round, and `sys_shutdown` moves an open socket without its FIN.
-/

namespace CarrotOS

open Word Transition Function Option

variable {P : Sent → Prop} {id : ℕ} {v' : View} {s : Sock}

/-- The states in which a socket has closed its sending direction and waits for the other side. -/
def NetState.isClosing : NetState → Bool
  | .finWait1 | .finWait2 | .closing | .lastAck => true
  | _ => false

def NetState.isOpen : NetState → Bool
  | .established | .closeWait => true
  | _ => false

/-- A FIN with the sequence number before `seqLocal` has been transmitted for the socket. -/
def FinSent (net : Net) (id seqLocal : ℕ) : Prop :=
  ∃ e ∈ net.sent, e.sockId = id ∧ hasFlag e.packet.hdr.flags tcpFin = true ∧
    u32 (e.packet.hdr.seq + 1) = u32 seqLocal

def FinBookkeeping (net : Net) : Prop :=
  ∀ id v, net.view id = some v → v.protocol = .tcp → v.state.isClosing = true →
    FinSent net id v.seqLocal

inductive FinCall where
  | shutdown (pid sockfd : ℕ) (how : ℤ)
  | sendFin (id : ℕ)
  | segment (f : Frame)

def FinCall.step (net : Net) : Env × FinCall → Option Net
  | (env, .shutdown pid sockfd how) => (sysShutdown env net pid sockfd how).map Prod.fst
  | (env, .sendFin id) => some (tcpSendFin env net id).1
  | (env, .segment f) => handleTcpV4 env net f

/-- The socket for which a call is to send a FIN. -/
def FinCall.target (net : Net) : FinCall → Option ℕ
  | .shutdown pid sockfd how =>
    if sockfd < maxFdInner ∧ (net.fds pid sockfd).type = .socket ∧ (how = 1 ∨ how = 2) then
      some (net.fds pid sockfd).resId
    else none
  | .sendFin id => some id
  | .segment _ => none

/-- If the call is to send a FIN for an open TCP socket and nothing is transmitted, the socket
stays as it is. -/
def FinKept (net net' : Net) (c : FinCall) : Prop :=
  ∀ id v, c.target net = some id → net.view id = some v → v.protocol = .tcp →
    v.state.isOpen = true → net'.sent = net.sent → net'.view id = some v

/-- The condition on a call: a FIN is sent only if the destination is resolved, and a TCP socket
is shut down for writing only if it is closing already. -/
def FinCall.Ok (net : Net) : Env × FinCall → Prop
  | (_, .shutdown pid sockfd how) =>
    ∀ id s, (FinCall.shutdown pid sockfd how).target net = some id → net.sockets id = some s →
      s.protocol = .tcp → s.state.isClosing = true
  | (env, .sendFin id) =>
    ∀ s, net.sockets id = some s → s.version ≠ 0 → s.state.isOpen = true →
      env.resolved (u32 s.localIpL) (u32 s.remoteIpL) = true
  | (_, .segment _) => True

section Bookkeeping

variable {env : Env} {net net' : Net}

theorem FinSent.mono (hemits : Emits P net net') {q : ℕ} (h : FinSent net id q) :
    FinSent net' id q := by
  obtain ⟨e, he, hrest⟩ := h
  exact ⟨e, hemits.mem he, hrest⟩

theorem FinBookkeeping.of_same_views (h : FinBookkeeping net) (hemits : Emits P net net')
    (hview : net'.view = net.view) : FinBookkeeping net' := by
  intro id v hv htcp hclosing
  rw [hview] at hv
  exact (h id v hv htcp hclosing).mono hemits

theorem FinBookkeeping.of_update (h : FinBookkeeping net)
    (hemits : Emits P net net')
    (hview : net'.view = update net.view id (some v'))
    (hnew : v'.state.isClosing = true → ∃ v, net.view id = some v ∧ v.protocol = v'.protocol ∧
      v.state.isClosing = true ∧ v.seqLocal = v'.seqLocal) :
    FinBookkeeping net' := by
  intro k w hw htcp hclosing
  rw [hview] at hw
  by_cases hk : k = id
  · subst hk
    rw [update_self] at hw
    cases hw
    obtain ⟨v, hv, hprot, hclosing0, hseq⟩ := hnew hclosing
    rw [← hseq]
    exact (h k v hv (hprot.trans htcp) hclosing0).mono hemits
  · rw [update_of_ne hk] at hw
    exact (h k w hw htcp hclosing).mono hemits

theorem SegmentMove.isClosing {v : View} (h : SegmentMove v v')
    (hclosing : v'.state.isClosing = true) :
    v.state.isClosing = true ∧ v.protocol = v'.protocol ∧ v.seqLocal = v'.seqLocal := by
  cases h with
  | finAcked | finCrossed => exact ⟨rfl, rfl, rfl⟩
  | connect | complete | acknowledge | remoteFin | closed | lastAcked | closingAcked =>
    cases hclosing

theorem FinBookkeeping.segment {seg : Segment} (h : FinBookkeeping net)
    (heffect : SegmentEffect env seg net net') : FinBookkeeping net' := by
  -- the one socket whose view changes is not closing afterwards, or was closing before
  cases heffect with
  | moves hmoves =>
    cases hmoves with
    | quiet hquiet => exact h.of_same_views hquiet.2 hquiet.1
    | move id v v' hv hmove hview hsent =>
      refine h.of_update hsent hview ?_
      intro hclosing
      obtain ⟨hclosing0, hprot, hseq⟩ := hmove.isClosing hclosing
      exact ⟨v, hv, hprot, hclosing0, hseq⟩
  | listener id s hs hview hsent =>
    refine h.of_update (P := fun _ => True) ⟨_, hsent, fun _ _ => trivial⟩ hview ?_
    intro hclosing
    have hlisten : s.view.state = .listen := hs.2.1
    simp only [hlisten] at hclosing
    cases hclosing
  | child id s hfree htcp hview hsent =>
    refine h.of_update (P := fun _ => True) ⟨_, hsent, fun _ _ => trivial⟩ hview ?_
    intro hclosing
    cases hclosing

theorem tcpSendFin_of_ok (hok : FinCall.Ok net (env, .sendFin id)) :
    (tcpSendFin env net id).1.view = net.view ∧
      Emits (fun _ => True) net (tcpSendFin env net id).1 := by
  unfold tcpSendFin
  split
  · exact ⟨rfl, .of_eq rfl⟩
  · rename_i s hs
    split
    · exact ⟨rfl, .of_eq rfl⟩
    · rename_i hversion
      split
      · exact ⟨rfl, .of_eq rfl⟩
      · rename_i hstate
        have hopen : s.state.isOpen = true := by
          rcases not_and_or.mp hstate with h | h <;> rw [not_not.mp h] <;> rfl
        rw [nicSendIpv4_of_resolved (hok s hs hversion hopen)]
        exact ⟨rfl, ⟨_, rfl, fun _ _ => trivial⟩⟩

theorem tcpSendFin_of_not_open (hs : net.sockets id = some s) (hopen : s.state.isOpen = false) :
    tcpSendFin env net id = (net, false) := by
  unfold tcpSendFin
  rw [hs]
  have hstate : s.state ≠ .established ∧ s.state ≠ .closeWait := by
    constructor <;> intro h <;> rw [h] at hopen <;> cases hopen
  simp only [if_pos hstate, ite_self]

theorem setShutdownState_view (hs : net.sockets id = some s) (hclosing : s.state.isClosing = true) :
    (setShutdownState net id).view =
      update net.view id (some { s.view with state := .closing }) := by
  have hnew : shutdownState s.state = .closing := by
    cases hstate : s.state <;> rw [hstate] at hclosing <;> first | rfl | cases hclosing
  rw [setShutdownState,
    view_modifySock _ _ (g := fun v => { v with state := shutdownState v.state }) fun _ => rfl,
    view_of_sockets hs, map_some]
  congr 2
  exact congrArg (fun st => (⟨s.protocol, st, s.seqLocal⟩ : View)) hnew

theorem isClosing_not_isOpen {t : NetState} (h : t.isClosing = true) : t.isOpen = false := by
  cases t <;> first | rfl | cases h

/-- Where it is allowed, `sys_shutdown` keeps the bookkeeping. -/
theorem FinBookkeeping.shutdown {pid sockfd r : ℕ} {how : ℤ} (h : FinBookkeeping net)
    (hok : FinCall.Ok net (env, .shutdown pid sockfd how))
    (hstep : sysShutdown env net pid sockfd how = some (net', r)) : FinBookkeeping net' := by
  rcases sysShutdown_cases hstep with rfl | ⟨id, s, rfl, hs, hcases⟩
  · exact h
  rcases hcases with ⟨hudp, rfl⟩ | ⟨hfd, htype, htcp, hcases⟩
  · have hview := view_modifySock net (net.fds pid sockfd).resId
      (f := fun s => { s with state := .closed }) (g := fun v => { v with state := .closed })
      fun _ => rfl
    rw [view_of_sockets hs, map_some] at hview
    refine h.of_update (P := fun _ => True) (.of_eq rfl) hview ?_
    intro hclosing
    cases hclosing
  · -- the socket is closing already, so that `tcp_send_fin` does nothing in either order
    have hclosing : s.state.isClosing = true := by
      refine hok _ s (if_pos ⟨hfd, htype, ?_⟩) hs htcp
      rcases hcases with ⟨hhow, -⟩ | ⟨hhow, -⟩
      · exact .inl hhow
      · exact .inr hhow
    have hset : FinBookkeeping (setShutdownState net (net.fds pid sockfd).resId) := by
      refine h.of_update (P := fun _ => True) (.of_eq rfl) (setShutdownState_view hs hclosing) ?_
      intro _
      exact ⟨_, view_of_sockets hs, rfl, hclosing, rfl⟩
    rcases hcases with ⟨-, rfl⟩ | ⟨-, rfl⟩
    · have hs' : (setShutdownState net (net.fds pid sockfd).resId).sockets
          (net.fds pid sockfd).resId = some { s with state := shutdownState s.state } := by
        rw [setShutdownState, modifySock_sockets_self, hs, map_some]
      rw [tcpSendFin_of_not_open hs' (by cases s.state <;> rfl)]
      exact hset
    · rw [tcpSendFin_of_not_open hs (isClosing_not_isOpen hclosing)]
      exact hset

/-- **One call** keeps the bookkeeping where it is allowed. -/
theorem FinBookkeeping.step {c : Env × FinCall} (h : FinBookkeeping net) (hok : FinCall.Ok net c)
    (hstep : FinCall.step net c = some net') : FinBookkeeping net' := by
  obtain ⟨env, c⟩ := c
  cases c with
  | shutdown pid sockfd how =>
    obtain ⟨⟨net1, r⟩, h1, rfl⟩ := map_eq_some_iff.mp hstep
    exact h.shutdown hok h1
  | sendFin id =>
    cases hstep
    obtain ⟨hview, hemits⟩ := tcpSendFin_of_ok hok
    exact h.of_same_views hemits hview
  | segment f =>
    rw [FinCall.step, handleTcpV4] at hstep
    exact h.segment (handleSegment_effect hstep)

theorem finKept_of_ok {c : Env × FinCall} (hok : FinCall.Ok net c)
    (hstep : FinCall.step net c = some net') : FinKept net net' c.2 := by
  intro id v htarget hv htcp hopen _
  obtain ⟨env, c⟩ := c
  cases c with
  | shutdown pid sockfd how =>
    -- an open TCP socket is not shut down at all
    obtain ⟨s, hs, rfl⟩ := map_eq_some_iff.mp hv
    have hclosing := hok id s htarget hs htcp
    rw [isClosing_not_isOpen (t := s.view.state) hclosing] at hopen
    cases hopen
  | sendFin k =>
    cases hstep
    rw [(tcpSendFin_of_ok hok).1]
    exact hv
  | segment f => cases htarget

/-- **FIN bookkeeping.** In every run allowed by `FinCall.Ok`, each closing TCP socket has sent a
FIN with the number before its own, and a FIN that is not transmitted leaves its open socket as it
is. -/
theorem finBookkeeping_of_run {calls : List (Env × FinCall)} (h : FinBookkeeping net)
    (hrun : Run FinCall.step FinCall.Ok net calls net') :
    FinBookkeeping net' ∧
      ∀ c net'', FinCall.Ok net' c → FinCall.step net' c = some net'' → FinKept net' net'' c.2 := by
  refine ⟨hrun.invariant FinBookkeeping (fun _ _ _ h hok hstep => h.step hok hstep) h, ?_⟩
  intro c net'' hok hstep
  exact finKept_of_ok hok hstep

end Bookkeeping

/-! ## An open socket without its FIN -/

theorem finBookkeeping_ofSock_open : FinBookkeeping (.ofSock (sampleSock .established)) := by
  intro id v hv _ hclosing
  by_cases hid : id = 0
  · subst hid
    cases hv
    cases hclosing
  · simp [Net.view, Net.proj, Net.ofSock, hid] at hv

/-- A socket in `FIN_WAIT_1` whose FIN has been transmitted, and an open one that has no version of
the protocol, for which none is. -/
def closingNet : Net :=
  { Net.ofSock (sampleSock .finWait1) with
    sockets := update (Net.ofSock (sampleSock .finWait1)).sockets 1
      (some { sampleSock .established with version := 0, localPort := 9 })
    sent := [⟨0, tcpPacket (sampleSock .finWait1) 3 999 0 (tcpFin ||| tcpAck) []⟩] }

theorem finBookkeeping_closingNet : FinBookkeeping closingNet := by
  intro id v hv _ hclosing
  by_cases hid : id = 0
  · subst hid
    cases hv
    exact ⟨_, List.mem_singleton.mpr rfl, rfl, rfl, rfl⟩
  by_cases hid' : id = 1
  · subst hid'
    cases hv
    cases hclosing
  · simp [Net.view, Net.proj, closingNet, Net.ofSock, hid, hid'] at hv

/-- The acknowledgement of its FIN takes the closing socket to `FIN_WAIT_2`, and the open one is as
it was behind a FIN that is not transmitted. -/
theorem finBookkeeping_of_run_closing :
    ∃ net' net'', Run FinCall.step FinCall.Ok closingNet
        [(resolvedEnv, .segment (handshakeFrame 0x10))] net' ∧
      net'.view 0 = some ⟨.tcp, .finWait2, 1000⟩ ∧ FinSent net' 0 1000 ∧
      FinCall.step net' (resolvedEnv, .sendFin 1) = some net'' ∧ net''.sent = net'.sent ∧
      net''.view 1 = some ⟨.tcp, .established, 1000⟩ := by
  obtain ⟨net', hnet', hclosing, hopen, net'', hnet'', hsent⟩ :
      ∃ net' ∈ FinCall.step closingNet (resolvedEnv, .segment (handshakeFrame 0x10)),
        net'.view 0 = some ⟨.tcp, .finWait2, 1000⟩ ∧
        net'.view 1 = some ⟨.tcp, .established, 1000⟩ ∧
      ∃ net'' ∈ FinCall.step net' (resolvedEnv, .sendFin 1), net''.sent = net'.sent := by
    decide +kernel
  have hrun : Run FinCall.step FinCall.Ok closingNet
      [(resolvedEnv, .segment (handshakeFrame 0x10))] net' := .snoc (.nil _) trivial hnet'
  have hok : FinCall.Ok net' (resolvedEnv, .sendFin 1) := fun _ _ _ _ => rfl
  obtain ⟨hbook, hkept⟩ := finBookkeeping_of_run finBookkeeping_closingNet hrun
  exact ⟨net', net'', hrun, hclosing, hbook 0 _ hclosing rfl rfl, hnet'', hsent,
    hkept _ _ hok hnet'' 1 _ rfl hopen rfl rfl hsent⟩

/-- **`SHUT_WR` sends no FIN**, and puts an open socket in `FIN_WAIT_1`. -/
theorem shutdown_without_fin :
    FinBookkeeping (.ofSock (sampleSock .established)) ∧
      ∃ net', FinCall.step (.ofSock (sampleSock .established)) (resolvedEnv, .shutdown 0 0 1) =
        some net' ∧
        net'.view 0 = some ⟨.tcp, .finWait1, 1000⟩ ∧ net'.sent = [] ∧ ¬ FinBookkeeping net' := by
  refine ⟨finBookkeeping_ofSock_open, _, rfl, rfl, rfl, ?_⟩
  intro h
  obtain ⟨e, he, -⟩ := h 0 ⟨.tcp, .finWait1, 1000⟩ rfl rfl rfl
  cases he

end CarrotOS
