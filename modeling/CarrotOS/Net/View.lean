import CarrotOS.Net.TcpReceive

/-!
# What a segment does to the connections

For the bookkeeping of sequence numbers a socket is its protocol, its state and its local sequence
number. Each routine of the TCP code changes this view of one socket at most, and a segment either
drives a transition of its socket or makes a SYN-ACK be sent.
-/

namespace CarrotOS

open Function Word List Option

variable {s : Sock} {f : Sock → Sock} {net' : Net}

/-- The protocol, state and local sequence number of a socket. -/
@[ext] structure View where
  protocol : Protocol
  state : NetState
  seqLocal : ℕ
  deriving DecidableEq

def Sock.view (s : Sock) : View :=
  ⟨s.protocol, s.state, s.seqLocal⟩

def Net.view (net : Net) : ℕ → Option View :=
  net.proj Sock.view

section View

variable {net net' : Net} {id : ℕ}

theorem view_of_sockets (h : net.sockets id = some s) : net.view id = some s.view :=
  proj_of_sockets h

theorem view_congr (h : net'.sockets = net.sockets) : net'.view = net.view :=
  proj_congr h

theorem view_modifySock (net : Net) (id : ℕ) {g : View → View} (hf : ∀ s, (f s).view = g s.view) :
    (net.modifySock id f).view = update net.view id ((net.view id).map g) :=
  proj_modifySock net id hf

theorem view_modifySock_some (hs : net.sockets id = some s) (f : Sock → Sock) :
    (net.modifySock id f).view = update net.view id (some (f s).view) :=
  proj_modifySock_some hs f

theorem view_modifySock_of_update {V : ℕ → Option View} {v : View}
    (h : net.view = update V id (some v)) {g : View → View} (hf : ∀ s, (f s).view = g s.view) :
    (net.modifySock id f).view = update V id (some (g v)) :=
  proj_modifySock_of_update h hf

theorem view_modifySock_of_eq (net : Net) (id : ℕ) (hf : ∀ s, (f s).view = s.view) :
    (net.modifySock id f).view = net.view :=
  proj_modifySock_of_eq net id hf

end View

/-! ## Emitted packets -/

/-- The packets sent between the two states all satisfy `P`. -/
def Emits (P : Sent → Prop) (net net' : Net) : Prop :=
  ∃ extra, net'.sent = net.sent ++ extra ∧ ∀ e ∈ extra, P e

/-- A bare acknowledgement. -/
def Sent.IsAck (e : Sent) : Prop :=
  e.packet.hdr.flags = tcpAck

section Emits

variable {P : Sent → Prop} {net net' net'' : Net}

theorem Emits.of_eq (h : net'.sent = net.sent) : Emits P net net' :=
  ⟨[], by simp [h], by simp⟩

theorem Emits.trans (h : Emits P net net') (h' : Emits P net' net'') : Emits P net net'' := by
  obtain ⟨xs, hxs, hP⟩ := h
  obtain ⟨ys, hys, hP'⟩ := h'
  refine ⟨xs ++ ys, by rw [hys, hxs, append_assoc], ?_⟩
  intro e he
  rcases mem_append.mp he with he | he
  · exact hP e he
  · exact hP' e he

theorem Emits.mem (h : Emits P net net') {e : Sent} (he : e ∈ net.sent) : e ∈ net'.sent := by
  obtain ⟨xs, hxs, -⟩ := h
  rw [hxs]
  exact mem_append_left _ he

theorem emits_nicSendIpv4 (env : Env) (net : Net) (id : ℕ) (p : Packet) (hP : P ⟨id, p⟩) :
    Emits P net (nicSendIpv4 env net id p).1 := by
  refine ⟨_, nicSendIpv4_sent env net id p, ?_⟩
  intro e he
  split at he
  · rw [mem_singleton.mp he]
    exact hP
  · cases he

end Emits

/-! ## Routines that change no view -/

section Quiet

variable (env : Env) (net : Net) (id : ℕ)

/-- The step changes no view and sends acknowledgements only. -/
def Quiet (net net' : Net) : Prop :=
  net'.view = net.view ∧ Emits Sent.IsAck net net'

theorem Quiet.refl : Quiet net net :=
  ⟨rfl, .of_eq rfl⟩

variable {net} in
theorem Quiet.trans {net'' : Net} (h : Quiet net net') (h' : Quiet net' net'') :
    Quiet net net'' :=
  ⟨h'.1.trans h.1, h.2.trans h'.2⟩

theorem quiet_modifySock (hf : ∀ s, (f s).view = s.view) :
    Quiet net (net.modifySock id f) :=
  ⟨view_modifySock_of_eq net id hf, .of_eq rfl⟩

theorem quiet_touch : Quiet net (touch env net id) :=
  quiet_modifySock net id fun _ => rfl

theorem quiet_wakeAll (flag : WaitFlag) : Quiet net (wakeAll net flag) :=
  ⟨rfl, .of_eq rfl⟩

theorem quiet_tcpSendAck : Quiet net (tcpSendAck env net id) := by
  unfold tcpSendAck
  split
  · exact Quiet.refl _
  · refine Quiet.trans ⟨view_congr ?_, ?_⟩ (quiet_touch env _ id)
    · exact nicSendIpv4_sockets ..
    · exact emits_nicSendIpv4 _ _ _ _ rfl

theorem quiet_resumeFirst (listenId : ℕ) :
    Quiet net (resumeFirstThreadPendingOnListen net listenId) := by
  unfold resumeFirstThreadPendingOnListen
  split <;> exact ⟨rfl, .of_eq rfl⟩

variable {net} in
theorem quiet_pushBacklog {child queued : ℕ} (h : pushBacklog net child id = some (net', queued)) :
    Quiet net net' := by
  unfold pushBacklog at h
  split at h
  · cases h
  · cases h
    exact quiet_modifySock net id fun _ => rfl

theorem quiet_recvSocketAppendTcp (payload : ℕ → UInt8) (payloadLen : ℕ) :
    Quiet net (recvSocketAppendTcp net id payload payloadLen) :=
  quiet_modifySock net id fun _ => rfl

theorem quiet_handleTcpEstablishedPacket (seg : Segment) :
    Quiet net (handleTcpEstablishedPacket env net seg) := by
  unfold handleTcpEstablishedPacket
  split
  · exact Quiet.refl _
  · rename_i found _
    refine Quiet.trans ?_ (quiet_wakeAll _ _)
    refine Quiet.trans ?_ (quiet_tcpSendAck env _ found)
    refine Quiet.trans ?_ (quiet_recvSocketAppendTcp _ found _ _)
    exact quiet_modifySock net found fun _ => rfl

theorem quiet_onPayload (seg : Segment) : Quiet net (onPayload env net seg id) := by
  unfold onPayload
  split
  · exact quiet_touch env net id
  · split
    · exact Quiet.refl _
    · split
      · exact Quiet.refl _
      · exact (quiet_handleTcpEstablishedPacket env net seg).trans (quiet_touch env _ id)

end Quiet

/-! ## The effect of a segment -/

/-- The transitions that a segment drives without a handshake segment being sent. -/
inductive SegmentMove : View → View → Prop
  | connect (p q) : SegmentMove ⟨p, .synSent, q⟩ ⟨p, .established, q⟩
  | complete (p q) : SegmentMove ⟨p, .synReceived, q⟩ ⟨p, .established, q⟩
  | acknowledge (p q q') : SegmentMove ⟨p, .established, q⟩ ⟨p, .established, q'⟩
  | remoteFin (p q) : SegmentMove ⟨p, .established, q⟩ ⟨p, .closeWait, q⟩
  | finAcked (p q) : SegmentMove ⟨p, .finWait1, q⟩ ⟨p, .finWait2, q⟩
  | finCrossed (p q) : SegmentMove ⟨p, .finWait1, q⟩ ⟨p, .closing, q⟩
  | closed (p q) : SegmentMove ⟨p, .finWait2, q⟩ ⟨p, .timeWait, q⟩
  | lastAcked (p q) : SegmentMove ⟨p, .lastAck, q⟩ ⟨p, .closed, q⟩
  | closingAcked (p q) : SegmentMove ⟨p, .closing, q⟩ ⟨p, .timeWait, q⟩

/-- The SYN-ACK that `tcp_send_synack` builds for a socket. -/
def synackPacket (s : Sock) (seq : ℕ) : Packet :=
  tcpPacket s s.localPort s.seqLocal (u32 (seq + 1)) (tcpSyn ||| tcpAck) []

/-- What a SYN-ACK for the socket `s` at `id` adds to the packets sent. -/
def synackSent (env : Env) (id : ℕ) (s : Sock) (seq : ℕ) : List Sent :=
  if env.resolved (u32 s.localIpL) (u32 s.remoteIpL) then [⟨id, synackPacket s seq⟩] else []

/-- A SYN for a listening socket whose own tuple is that of the segment, so that the SYN-ACK is
sent from the listener. -/
def AnswersFromListener (env : Env) (net : Net) (seg : Segment) (id : ℕ) (s : Sock) : Prop :=
  net.sockets id = some s ∧ s.state = .listen ∧ hasFlag seg.flags tcpSyn = true ∧
    findSocketNotListen net (seg.tupleTcp env).toNetTuple = some id

/-- A quiet step, or one socket makes one transition; only acknowledgements are sent. -/
inductive Moves (net net' : Net) : Prop
  | quiet (h : Quiet net net')
  | move (id : ℕ) (v v' : View) (hv : net.view id = some v) (hmove : SegmentMove v v')
      (hview : net'.view = update net.view id (some v'))
      (hsent : Emits Sent.IsAck net net')

inductive SegmentEffect (env : Env) (seg : Segment) (net net' : Net) : Prop
  | moves (h : Moves net net')
  | listener (id : ℕ) (s : Sock) (hs : AnswersFromListener env net seg id s)
      (hview : net'.view =
        update net.view id (some { s.view with seqLocal := u64 (s.seqLocal + 1) }))
      (hsent : net'.sent = net.sent ++ synackSent env id s seg.seq)
  | child (id : ℕ) (s : Sock) (hfree : net.sockets id = none) (htcp : s.protocol = .tcp)
      (hview : net'.view =
        update net.view id (some ⟨.tcp, .synReceived, u64 (s.seqLocal + 1)⟩))
      (hsent : net'.sent = net.sent ++ synackSent env id s seg.seq)

section Effect

variable {env : Env} {seg : Segment} {net net' net'' : Net} {id : ℕ} {s : Sock}

theorem Moves.then_quiet (h : Moves net net') (hquiet : Quiet net' net'') : Moves net net'' := by
  cases h with
  | quiet h => exact .quiet (h.trans hquiet)
  | move id v v' hv hmove hview hsent =>
    exact .move id v v' hv hmove (hquiet.1.trans hview) (hsent.trans hquiet.2)

theorem SegmentEffect.then_touch (h : SegmentEffect env seg net net') (id : ℕ) :
    SegmentEffect env seg net (touch env net' id) := by
  have hview : (touch env net' id).view = net'.view := (quiet_touch env net' id).1
  cases h with
  | moves h => exact .moves (h.then_quiet (quiet_touch env net' id))
  | listener k s hs hview' hsent => exact .listener k s hs (hview.trans hview') hsent
  | child k s hfree htcp hview' hsent => exact .child k s hfree htcp (hview.trans hview') hsent

theorem Moves.of_assign (hs : net.sockets id = some s) (hquiet : Quiet net net') {g : View → View}
    (hf : ∀ s, (f s).view = g s.view) (hmove : SegmentMove s.view (g s.view)) :
    Moves net (net'.modifySock id f) := by
  have hv := view_of_sockets hs
  refine .move id _ _ hv hmove ?_ hquiet.2
  rw [view_modifySock net' id hf, hquiet.1, hv]
  rfl

theorem tcpSendSynack_spec (env : Env) (hs : net.sockets id = some s) (seq : ℕ) :
    (tcpSendSynack env net id seq).view =
        update net.view id (some { s.view with seqLocal := u64 (s.seqLocal + 1) }) ∧
      (tcpSendSynack env net id seq).sent = net.sent ++ synackSent env id s seq := by
  unfold tcpSendSynack
  rw [hs]
  refine ⟨?_, ?_⟩
  · rw [view_modifySock _ _ (g := fun v => { v with seqLocal := u64 (v.seqLocal + 1) })
        fun _ => rfl, view_congr (nicSendIpv4_sockets ..), view_of_sockets hs]
    rfl
  · exact nicSendIpv4_sent ..

theorem createChild_effect {listenId : ℕ} (h : createChild env net seg listenId = some net') :
    SegmentEffect env seg net net' := by
  unfold createChild at h
  rcases hc : createSocketTcp env net (seg.tupleTcp env) with ⟨net1, i⟩
  rw [hc] at h
  dsimp only at h
  split at h
  · rename_i hlt
    obtain ⟨hfree, rfl⟩ := createSocketTcp_spec hc hlt
    cases h
    refine SegmentEffect.then_touch ?_ i
    -- the socket as it is when the SYN-ACK is built
    have hs : (({ net with
        sockets := update net.sockets i
          (some { toNetTupleTcp := newTcpTuple env (seg.tupleTcp env)
                  area := env.freshArea }) } : Net).modifySock i fun s =>
        { s with listenId, state := .synReceived }).sockets i =
          some { toNetTupleTcp := { newTcpTuple env (seg.tupleTcp env) with
                   listenId, state := .synReceived }
                 area := env.freshArea } := by
      simp
    obtain ⟨hview, hsent⟩ := tcpSendSynack_spec env hs seg.seq
    refine .child i _ hfree rfl ?_ hsent
    rw [hview]
    funext k
    by_cases hk : k = i
    · subst hk
      simp only [update_self]
      rfl
    · simp only [update_of_ne hk, Net.view, Net.proj, modifySock_sockets_of_ne _ _ _ hk]
  · cases h

theorem onListen_effect (hs : net.sockets id = some s) (hstate : s.state = .listen)
    (hlookup : lookupSocket env net seg = some id) (h : onListen env net seg = some net') :
    SegmentEffect env seg net net' := by
  unfold onListen at h
  split at h
  · rename_i hsyn
    split at h
    · cases h
      exact .moves (.quiet (Quiet.refl _))
    · split at h
      · rename_i found hfound
        -- the same lookup with the same tuple led to the listener in the first place
        have hid := (lookupSocket_of_exact hfound).symm.trans hlookup
        obtain rfl := some.inj hid
        obtain rfl := some.inj h
        obtain ⟨hview, hsent⟩ := tcpSendSynack_spec env hs seg.seq
        have hans : AnswersFromListener env net seg found s := ⟨hs, hstate, hsyn, hfound⟩
        exact .listener found s hans hview hsent
      · exact createChild_effect h
  · cases h
    exact .moves (.quiet (Quiet.refl _))

theorem onSynSent_moves (hs : net.sockets id = some s) (hstate : s.state = .synSent) :
    Moves net (onSynSent env net seg id) := by
  unfold onSynSent
  split
  · refine .of_assign hs (g := fun v => { v with state := .established }) ?_ ?_ ?_
    · refine Quiet.trans ?_ (quiet_tcpSendAck env _ id)
      exact quiet_modifySock net id fun _ => rfl
    · intro s
      rfl
    · rw [Sock.view, hstate]
      exact .connect _ _
  · exact .quiet (Quiet.refl _)

theorem onSynReceived_moves (hs : net.sockets id = some s) (hstate : s.state = .synReceived)
    (h : onSynReceived net seg id s = some net') : Moves net net' := by
  unfold onSynReceived at h
  split at h
  · split at h
    · cases h
    · rename_i net1 queued hpush
      obtain rfl := some.inj h
      refine Moves.then_quiet ?_ (quiet_resumeFirst _ s.listenId)
      have hquiet := quiet_pushBacklog _ hpush
      refine .move id _ ⟨s.protocol, .established, s.seqLocal⟩ (view_of_sockets hs) ?_ ?_ ?_
      · rw [Sock.view, hstate]
        exact .complete _ _
      · rw [view_modifySock _ _ (g := fun v => { v with state := .established }) fun _ => rfl]
        -- a socket marked as deleted becomes established all the same
        split
        · rw [markSocketAsDeleted,
            view_modifySock _ _ (g := fun v => { v with state := .closeWait }) fun _ => rfl,
            hquiet.1, view_of_sockets hs]
          simp [Sock.view]
        · rw [hquiet.1, view_of_sockets hs]
          rfl
      · refine hquiet.2.trans (.of_eq ?_)
        split <;> rfl
  · cases h
    exact .quiet (Quiet.refl _)

theorem handleTcpReceiveAckEstablished_moves (net : Net) (id ackSeq : ℕ) :
    Moves net (handleTcpReceiveAckEstablished net id ackSeq).1 := by
  unfold handleTcpReceiveAckEstablished
  split
  · exact .quiet (Quiet.refl _)
  · rename_i s hs
    split
    · exact .quiet (Quiet.refl _)
    · rename_i hopen
      split
      · exact .quiet (Quiet.refl _)
      · have hstate : s.state = .established := by
          by_contra hne
          exact hopen (.inl hne)
        refine Moves.then_quiet ?_ (quiet_wakeAll _ _)
        refine .move id s.view ⟨s.protocol, s.state, u64 (s.seqLocal + s.sendPayloadLen)⟩
          (view_of_sockets hs) ?_ ?_ (.of_eq rfl)
        · rw [Sock.view, hstate]
          exact .acknowledge _ _ _
        · exact view_modifySock_some hs _

theorem handleTcpReceiveAckEstablished_of_view {v : View} (hv : net.view id = some v)
    (hstate : v.state ≠ .established) (ackSeq : ℕ) :
    (handleTcpReceiveAckEstablished net id ackSeq).1 = net := by
  obtain ⟨s, hs, rfl⟩ := map_eq_some_iff.mp hv
  unfold handleTcpReceiveAckEstablished
  rw [hs]
  exact congrArg Prod.fst (if_pos (.inl hstate))

/-- After a FIN the acknowledgement is no longer looked at, and the payload changes no view. -/
theorem onEstablished_moves (hs : net.sockets id = some s) (hstate : s.state = .established) :
    Moves net (onPayload env (onAck (onFin env net seg id) seg id) seg id) := by
  refine Moves.then_quiet ?_ (quiet_onPayload env _ id seg)
  by_cases hfin : hasFlag seg.flags tcpFin = true
  · have hquiet : Quiet net (tcpSendAck env
        (net.modifySock id fun s => { s with seqRemote := u64 (s.seqRemote + 1) }) id) := by
      refine Quiet.trans ?_ (quiet_tcpSendAck env _ id)
      exact quiet_modifySock net id fun _ => rfl
    have hview : (onFin env net seg id).view id = some ⟨s.protocol, .closeWait, s.seqLocal⟩ := by
      rw [onFin, if_pos hfin,
        view_modifySock _ _ (g := fun v => { v with state := .closeWait }) fun _ => rfl, hquiet.1,
        view_of_sockets hs, update_self]
      rfl
    have hack : onAck (onFin env net seg id) seg id = onFin env net seg id := by
      rw [onAck, handleTcpReceiveAckEstablished_of_view hview (by simp), ite_self]
    rw [hack, onFin, if_pos hfin]
    refine .of_assign hs (g := fun v => { v with state := .closeWait }) hquiet ?_ ?_
    · intro s
      rfl
    · rw [Sock.view, hstate]
      exact .remoteFin _ _
  · have hnone : onFin env net seg id = net := by rw [onFin, if_neg hfin]
    rw [hnone, onAck]
    split
    · exact handleTcpReceiveAckEstablished_moves net id seg.ackSeq
    · exact .quiet (Quiet.refl _)

theorem onClosing_view (seg : Segment) (s : Sock) :
    (onClosing seg s).view = s.view ∨ SegmentMove s.view (onClosing seg s).view := by
  unfold onClosing
  split
  · rename_i hstate
    split
    · refine .inr ?_
      rw [Sock.view, hstate]
      exact .finAcked _ _
    · split
      · refine .inr ?_
        rw [Sock.view, hstate]
        exact .finCrossed _ _
      · exact .inl rfl
  · rename_i hstate
    split
    · refine .inr ?_
      rw [Sock.view, hstate]
      exact .closed _ _
    · exact .inl rfl
  · rename_i hstate
    split
    · refine .inr ?_
      rw [Sock.view, hstate]
      exact .lastAcked _ _
    · exact .inl rfl
  · rename_i hstate
    split
    · refine .inr ?_
      rw [Sock.view, hstate]
      exact .closingAcked _ _
    · exact .inl rfl
  · exact .inl rfl

theorem onClosing_moves (hs : net.sockets id = some s) :
    Moves net (net.modifySock id (onClosing seg)) := by
  have hview := view_modifySock_some hs (onClosing seg)
  rcases onClosing_view seg s with hsame | hmove
  · refine .quiet ⟨?_, .of_eq rfl⟩
    rw [hview, hsame, ← view_of_sockets hs, update_eq_self]
  · exact .move id _ _ (view_of_sockets hs) hmove hview (.of_eq rfl)

/-- **The effect of a segment.** -/
theorem handleSegment_effect (h : handleSegment env net seg = some net') :
    SegmentEffect env seg net net' := by
  unfold handleSegment at h
  split at h
  · cases h
    exact .moves (.quiet (Quiet.refl _))
  · rename_i id hlookup
    split at h
    · cases h
      exact .moves (.quiet (Quiet.refl _))
    · rename_i s hs
      unfold onSegment at h
      split at h
      · rename_i hstate
        obtain ⟨net1, h1, rfl⟩ := map_eq_some_iff.mp h
        exact (onListen_effect hs hstate hlookup h1).then_touch id
      · rename_i hstate
        cases h
        exact .moves ((onSynSent_moves hs hstate).then_quiet (quiet_touch env _ id))
      · rename_i hstate
        obtain ⟨net1, h1, rfl⟩ := map_eq_some_iff.mp h
        exact .moves ((onSynReceived_moves hs hstate h1).then_quiet (quiet_touch env _ id))
      · rename_i hstate
        cases h
        exact .moves (onEstablished_moves hs hstate)
      · cases h
        exact .moves ((onClosing_moves hs).then_quiet (quiet_touch env _ id))

end Effect

end CarrotOS
