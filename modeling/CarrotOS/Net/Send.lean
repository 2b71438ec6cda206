import CarrotOS.Lib.Run
import CarrotOS.Lib.Table
import CarrotOS.Net.Syscall

/-!
# The unacknowledged payload

A TCP socket keeps one payload until it is acknowledged, and `ack_est_blocked` says that there is
one. A sender that finds the flag set sleeps; an acknowledgement clears it and wakes all sleepers,
and none of them tests it again. So a payload is safe as long as no woken sender goes on while
another one has taken the buffer. The sequence numbers of the payloads are kept in 64 bits, and the
acknowledgements have 32.
-/

namespace CarrotOS

open Word Transition List

variable {s : Sock} {payload : ℕ → UInt8} {env : Env}

/-- The tables, and the payloads whose send call returned and whose acknowledgement has not been
accepted, in the order of the calls. -/
structure SendState where
  net : Net
  outstanding : List (List UInt8)

/-- The steps of senders, acknowledgements and the retry thread on one socket. -/
inductive SendCall where
  | enter (tid : ℕ) (payload : ℕ → UInt8) (payloadLen : ℕ)
  | resume (tid : ℕ)
  | ack (ackSeq : ℕ)
  | timer

/-- A send call for `payload` that returned `r` adds what it has taken over, unless it failed. -/
def noteSent (outstanding : List (List UInt8)) (payload : ℕ → UInt8) (r : ℕ) :
    List (List UInt8) :=
  if r = errno eNotSock then outstanding else outstanding ++ [cells r payload]

/-- One step on the socket `id`. A thread enters `tcp_copy_payload_and_send_established` when it
has nothing left over from before, and goes on after its sleep when it has been woken. -/
def SendCall.step (id : ℕ) (st : SendState) : Env × SendCall → Option SendState
  | (env, .enter tid payload payloadLen) =>
    match st.net.threads tid with
    | some ⟨_, .running, _, none⟩ =>
      match tcpSendEnter env st.net tid id payload payloadLen with
      | (net, none) => some { st with net }
      | (net, some r) => some ⟨net, noteSent st.outstanding payload r⟩
    | _ => none
  | (env, .resume tid) =>
    match st.net.threads tid with
    | some ⟨_, .ready, _, some (.send id' payload payloadLen)⟩ =>
      if id' = id then
        let (net, r) := tcpSendResume env st.net id payload payloadLen
        some ⟨finishThread net tid, noteSent st.outstanding payload r⟩
      else none
    | _ => none
  | (_, .ack ackSeq) =>
    let (net, accepted) := handleTcpReceiveAckEstablished st.net id ackSeq
    -- the acknowledgement is for the payload that was sent last
    some ⟨net, if accepted then st.outstanding.dropLast else st.outstanding⟩
  | (env, .timer) => some { st with net := retrySocket env st.net id }

/-- A woken sender goes on only when no payload waits for its acknowledgement, or when the socket
is no longer established. -/
def SendCall.Ok (id : ℕ) (st : SendState) : Env × SendCall → Prop
  | (_, .resume _) => ∀ s, st.net.sockets id = some s → s.state = .established →
      s.ackEstBlocked = false
  | _ => True

/-- The socket holds the payload that is not acknowledged, of which there is at most one. -/
def Preserved (id : ℕ) (st : SendState) : Prop :=
  ∃ s, st.net.sockets id = some s ∧
    (st.outstanding = [] ∨ st.outstanding = [s.payload] ∧ s.ackEstBlocked = true)

/-! ## The calls on the socket -/

section Calls

variable {env : Env} {net : Net} {id : ℕ} {s : Sock}

/-- What matters of a socket here: the payload, the flag and the state. -/
def Sock.sendPart (s : Sock) : List UInt8 × Bool × NetState :=
  (s.payload, s.ackEstBlocked, s.state)

theorem payload_storePayload (s : Sock) (payload : ℕ → UInt8) (len : ℕ) :
    (s.storePayload payload len).payload = cells len payload := by
  refine map_congr_left ?_
  intro k hk
  have hlt : k < len := mem_range.mp hk
  change Bytes.blit s.area payloadOffset len payload (payloadOffset + k) = payload k
  rw [Bytes.blit_of_mem _ _ (Nat.le_add_right _ _) (Nat.add_lt_add_left hlt _),
    Nat.add_sub_cancel_left]

theorem tcpSendEstablished_sockets (hs : net.sockets id = some s) :
    (tcpSendEstablished env net id).sockets id = some { s with lastUpdatedTimeUs := env.now } := by
  unfold tcpSendEstablished
  rw [hs]
  rw [nicSendIpv4_sockets, touch, modifySock_sockets_self, hs]
  rfl

theorem tcpSendResume_of_established (env : Env) (hs : net.sockets id = some s)
    (hstate : s.state = .established) (payload : ℕ → UInt8) (payloadLen : ℕ) :
    ∃ len s', len ≤ tcpMtu ∧ (tcpSendResume env net id payload payloadLen).2 = len ∧
      (tcpSendResume env net id payload payloadLen).1.sockets id = some s' ∧
      s'.sendPart = (cells len payload, true, .established) := by
  unfold tcpSendResume
  rw [hs]
  dsimp only
  rw [if_neg (not_not.mpr hstate)]
  refine ⟨_, _, ?_, rfl, tcpSendEstablished_sockets (modifySock_sockets_some hs _), ?_⟩
  · split <;> omega
  · rw [← payload_storePayload s, ← hstate]
    rfl

theorem tcpSendResume_of_not_established (hs : net.sockets id = some s)
    (hstate : s.state ≠ .established) (payload : ℕ → UInt8) (payloadLen : ℕ) :
    tcpSendResume env net id payload payloadLen = (net, errno eNotSock) := by
  unfold tcpSendResume
  rw [hs]
  exact if_pos hstate

/-- An acknowledgement is refused without effect, or accepted for a payload that waits for it. -/
theorem handleTcpReceiveAckEstablished_spec (hs : net.sockets id = some s) (ackSeq : ℕ) :
    handleTcpReceiveAckEstablished net id ackSeq = (net, false) ∨
      (handleTcpReceiveAckEstablished net id ackSeq).2 = true ∧ s.ackEstBlocked = true ∧
      ∃ s', (handleTcpReceiveAckEstablished net id ackSeq).1.sockets id = some s' ∧
        s'.sendPart = (s.payload, false, s.state) := by
  unfold handleTcpReceiveAckEstablished
  rw [hs]
  dsimp only
  split
  · exact .inl rfl
  rename_i hopen
  split
  · exact .inl rfl
  refine .inr ⟨rfl, ?_, ?_⟩
  · cases hblocked : s.ackEstBlocked with
    | true => rfl
    | false => exact absurd (.inr (by rw [hblocked]; rfl)) hopen
  · exact ⟨_, modifySock_sockets_some hs _, rfl⟩

theorem retrySocket_sendPart (env : Env) (hs : net.sockets id = some s)
    (hstate : s.state = .established ∨ s.state = .closeWait) :
    ∃ s', (retrySocket env net id).sockets id = some s' ∧ s'.payload = s.payload ∧
      s'.ackEstBlocked = s.ackEstBlocked ∧
      (s'.state = .established ∨ s'.state = .closeWait) := by
  unfold retrySocket
  rw [hs]
  dsimp only
  split
  · exact ⟨s, hs, rfl, rfl, hstate⟩
  rcases hstate with hstate | hstate
  · rw [hstate]
    dsimp only
    split
    · exact ⟨s, hs, rfl, rfl, .inl hstate⟩
    split
    · exact ⟨_, modifySock_sockets_some hs _, rfl, rfl, .inr rfl⟩
    · exact ⟨_, modifySock_sockets_some (tcpSendEstablished_sockets hs) _, rfl, rfl, .inl hstate⟩
  · rw [hstate]
    exact ⟨s, hs, rfl, rfl, .inr hstate⟩

end Calls

/-! ## Runs -/

section Runs

variable {id : ℕ} {st st' : SendState}

/-- The invariant: the socket is established or marked as deleted, it holds the unacknowledged
payload, and there is none when the flag is clear. -/
structure SendInv (id : ℕ) (st : SendState) (s : Sock) : Prop where
  sock : st.net.sockets id = some s
  state : s.state = .established ∨ s.state = .closeWait
  held : st.outstanding = [] ∨ st.outstanding = [s.payload]
  free : s.ackEstBlocked = false → st.outstanding = []

theorem SendInv.of_sendPart {s' : Sock} (h : SendInv id st s) (hsock : st'.net.sockets id = some s')
    (hpay : s'.payload = s.payload) (hflag : s'.ackEstBlocked = s.ackEstBlocked)
    (hstate : s'.state = .established ∨ s'.state = .closeWait)
    (hout : st'.outstanding = st.outstanding) : SendInv id st' s' where
  sock := hsock
  state := hstate
  held := by rw [hout, hpay]; exact h.held
  free := by rw [hout, hflag]; exact h.free

theorem noteSent_of_le {outstanding : List (List UInt8)} {len : ℕ} (h : len ≤ tcpMtu) :
    noteSent outstanding payload len = outstanding ++ [cells len payload] := by
  refine if_neg ?_
  intro heq
  rw [heq] at h
  simp [errno, eNotSock, tcpMtu] at h

theorem SendInv.sendResume (h : SendInv id st s)
    (hfree : s.state = .established → s.ackEstBlocked = false) (payload : ℕ → UInt8)
    (payloadLen : ℕ)
      (hnet : st'.net.sockets = (tcpSendResume env st.net id payload payloadLen).1.sockets)
    (hout : st'.outstanding =
      noteSent st.outstanding payload (tcpSendResume env st.net id payload payloadLen).2) :
    ∃ s', SendInv id st' s' := by
  by_cases hstate : s.state = .established
  · obtain ⟨len, s', hlen, hr, hsock, hpart⟩ :=
      tcpSendResume_of_established env h.sock hstate payload payloadLen
    obtain ⟨hpay, hrest⟩ := Prod.mk.inj hpart
    obtain ⟨hflag, hstate'⟩ := Prod.mk.inj hrest
    have hnone := h.free (hfree hstate)
    rw [hr, noteSent_of_le hlen, hnone, nil_append] at hout
    refine ⟨s', hnet ▸ hsock, .inl hstate', .inr ?_, ?_⟩
    · rw [hout]
      exact congrArg (fun x => [x]) hpay.symm
    · intro hclear
      cases hflag.symm.trans hclear
  · rw [tcpSendResume_of_not_established h.sock hstate] at hnet hout
    exact ⟨s, h.of_sendPart (hnet ▸ h.sock) rfl rfl h.state hout⟩

/-- A step of a sender: it sleeps, or reaches the buffer when the flag is clear. -/
theorem SendInv.enter (h : SendInv id st s) {tid payloadLen : ℕ}
    (hstep : SendCall.step id st (env, .enter tid payload payloadLen) = some st') :
    ∃ s', SendInv id st' s' := by
  unfold SendCall.step tcpSendEnter at hstep
  rw [h.sock] at hstep
  dsimp only at hstep
  split at hstep
  · by_cases hblocked : s.ackEstBlocked = true
    · simp only [if_pos hblocked] at hstep
      cases hstep
      exact ⟨s, h.of_sendPart h.sock rfl rfl h.state rfl⟩
    · simp only [if_neg hblocked] at hstep
      cases hstep
      exact h.sendResume (fun _ => by simpa using hblocked) payload payloadLen rfl rfl
  · cases hstep

/-- **One step**, where it is allowed, keeps the invariant. -/
theorem SendInv.step {c : Env × SendCall} (h : SendInv id st s) (hok : SendCall.Ok id st c)
    (hstep : SendCall.step id st c = some st') :
    ∃ s', SendInv id st' s' := by
  obtain ⟨env, c⟩ := c
  cases c with
  | enter tid payload payloadLen => exact h.enter hstep
  | resume tid =>
    unfold SendCall.step at hstep
    dsimp only at hstep
    split at hstep
    · split at hstep
      · cases hstep
        exact h.sendResume (hok s h.sock) _ _ rfl rfl
      · cases hstep
    · cases hstep
  | ack ackSeq =>
    rw [SendCall.step] at hstep
    rcases handleTcpReceiveAckEstablished_spec h.sock ackSeq with hrefused | haccepted
    · rw [hrefused] at hstep
      cases hstep
      exact ⟨s, h⟩
    · obtain ⟨hr, hblocked, s', hsock, hpart⟩ := haccepted
      obtain ⟨hpay, hrest⟩ := Prod.mk.inj hpart
      obtain ⟨hflag, hstate'⟩ := Prod.mk.inj hrest
      -- the one payload that was outstanding is acknowledged
      have hnone : st.outstanding.dropLast = [] := by
        rcases h.held with hheld | hheld <;> rw [hheld] <;> rfl
      dsimp only at hstep
      rw [hr, if_pos rfl, hnone] at hstep
      cases hstep
      exact ⟨s', hsock, hstate' ▸ h.state, .inl rfl, fun _ => rfl⟩
  | timer =>
    cases hstep
    obtain ⟨s', hsock, hpay, hflag, hstate⟩ := retrySocket_sendPart env h.sock h.state
    exact ⟨s', h.of_sendPart hsock hpay hflag hstate rfl⟩

/-- **No unacknowledged payload is overwritten** as long as a woken sender goes on only when the
buffer is free: the socket holds the one payload whose send call has returned and whose
acknowledgement has not been accepted. -/
theorem preserved_of_run {s : Sock} {calls : List (Env × SendCall)}
    (hs : st.net.sockets id = some s) (hstate : s.state = .established)
    (hnone : st.outstanding = [])
    (hrun : Run (SendCall.step id) (SendCall.Ok id) st calls st') : Preserved id st' := by
  have hstart : SendInv id st s := ⟨hs, .inl hstate, .inl hnone, fun _ => hnone⟩
  have hinv : ∃ s', SendInv id st' s' := by
    refine hrun.invariant (fun t => ∃ s', SendInv id t s') ?_ ⟨s, hstart⟩
    rintro t c t' ⟨s₁, h₁⟩ hok hstep
    exact h₁.step hok hstep
  obtain ⟨s', h⟩ := hinv
  refine ⟨s', h.sock, ?_⟩
  cases hflag : s'.ackEstBlocked with
  | true =>
    rcases h.held with hheld | hheld
    · exact .inl hheld
    · exact .inr ⟨hheld, rfl⟩
  | false => exact .inl (h.free hflag)

end Runs

/-! ## Two woken senders -/

def threeSenders : SendState where
  net := { Net.ofSock (sampleSock .established) with
    threads := fun tid => if tid < 3 then some ⟨0, .running, none, none⟩ else none }
  outstanding := []

/-- A sender, a second one that sleeps, the acknowledgement of the first payload, and the second
sender that goes on. -/
theorem preserved_of_run_resumed :
    ∃ st', Run (SendCall.step 0) (SendCall.Ok 0) threeSenders
        [(resolvedEnv, .enter 0 (fun _ => 7) 1), (resolvedEnv, .enter 1 (fun _ => 8) 1),
          (resolvedEnv, .ack 1001), (resolvedEnv, .resume 1)] st' ∧
      st'.outstanding = [[8]] ∧ Preserved 0 st' := by
  obtain ⟨st₁, hst₁, st₂, hst₂, st₃, hst₃, ⟨s, hs, hfree⟩, st', hst', hout⟩ :
      ∃ st₁ ∈ SendCall.step 0 threeSenders (resolvedEnv, .enter 0 (fun _ => 7) 1),
      ∃ st₂ ∈ SendCall.step 0 st₁ (resolvedEnv, .enter 1 (fun _ => 8) 1),
      ∃ st₃ ∈ SendCall.step 0 st₂ (resolvedEnv, .ack 1001),
        (Table.Holds st₃.net.sockets 0 fun s => s.ackEstBlocked = false) ∧
      ∃ st' ∈ SendCall.step 0 st₃ (resolvedEnv, .resume 1), st'.outstanding = [[8]] := by
    decide +kernel
  have hok : SendCall.Ok 0 st₃ (resolvedEnv, .resume 1) := by
    intro s' hs' _
    cases hs.symm.trans hs'
    exact hfree
  have hrun : Run (SendCall.step 0) (SendCall.Ok 0) threeSenders
      [(resolvedEnv, .enter 0 (fun _ => 7) 1), (resolvedEnv, .enter 1 (fun _ => 8) 1),
        (resolvedEnv, .ack 1001), (resolvedEnv, .resume 1)] st' :=
    .snoc (.snoc (.snoc (.snoc (.nil _) trivial hst₁) trivial hst₂) trivial hst₃) hok hst'
  exact ⟨st', hrun, hout, preserved_of_run rfl rfl rfl hrun⟩

/-- **A woken sender overwrites the payload of another**: the acknowledgement wakes two, and both
store their payload. -/
theorem woken_sender_overwrites :
    ∃ st', Run (SendCall.step 0) (fun _ _ => True) threeSenders
        [(resolvedEnv, .enter 0 (fun _ => 7) 1), (resolvedEnv, .enter 1 (fun _ => 8) 1),
          (resolvedEnv, .enter 2 (fun _ => 9) 1), (resolvedEnv, .ack 1001),
          (resolvedEnv, .resume 1), (resolvedEnv, .resume 2)] st' ∧
      st'.outstanding = [[8], [9]] ∧ (st'.net.sockets 0).map Sock.payload = some [9] ∧
      ¬ Preserved 0 st' := by
  refine ⟨_,
    .snoc (.snoc (.snoc (.snoc (.snoc (.snoc (.nil _) trivial rfl) trivial rfl) trivial rfl)
    trivial rfl) trivial rfl) trivial rfl, rfl, rfl, ?_⟩
  rintro ⟨s, -, hnone | ⟨hone, -⟩⟩
  · cases hnone
  · cases (cons.inj hone).2

/-! ## Sequence numbers -/

/-- A payload that is sent, and the number with which it is acknowledged. -/
structure Exchange where
  env : Env
  payload : ℕ → UInt8
  payloadLen : ℕ
  ackSeq : ℕ

/-- The payload is sent on the socket `id` and its acknowledgement is accepted. -/
def Exchange.apply (id : ℕ) (net : Net) (x : Exchange) : Option Net :=
  let (net, accepted) := handleTcpReceiveAckEstablished
    (tcpSendResume x.env net id x.payload x.payloadLen).1 id x.ackSeq
  if accepted then some net else none

/-- The lengths and the numbers that fit into segments. -/
def Exchange.Fits (x : Exchange) : Prop :=
  x.payloadLen ≤ tcpMtu ∧ x.ackSeq < 2 ^ 32

/-- Of all numbers, the one that a peer returns for the segment is accepted, and clears the flag. -/
def Recognised (net : Net) (id : ℕ) (p : Packet) : Prop :=
  ∀ ackSeq < 2 ^ 32,
    ((handleTcpReceiveAckEstablished net id ackSeq).2 = true ↔
      ackSeq = u32 (p.hdr.seq + p.payload.length)) ∧
    ((handleTcpReceiveAckEstablished net id ackSeq).2 = true →
      ∃ s, (handleTcpReceiveAckEstablished net id ackSeq).1.sockets id = some s ∧
        s.ackEstBlocked = false)

/-- An established socket with the sequence number `q`. -/
def Net.HasSeq (net : Net) (id q : ℕ) : Prop :=
  ∃ s, net.sockets id = some s ∧ s.state = .established ∧ s.seqLocal = q

section Sequence

variable {net net' : Net} {id q len : ℕ}

theorem tcpSendResume_seq (env : Env) (payload : ℕ → UInt8) (h : net.HasSeq id q)
    (hlen : len ≤ tcpMtu) :
    (∃ s, (tcpSendResume env net id payload len).1.sockets id = some s ∧
      s.state = .established ∧ s.ackEstBlocked = true ∧ s.seqLocal = q ∧ s.sendPayloadLen = len) ∧
    ∀ p, (tcpSendResume env net id payload len).1.sent = net.sent ++ [⟨id, p⟩] →
      p.hdr.seq = u32 q ∧ p.payload.length = len := by
  obtain ⟨s, hs, hstate, rfl⟩ := h
  have hstored := modifySock_sockets_some hs fun s => s.storePayload payload len
  unfold tcpSendResume
  rw [hs]
  dsimp only
  rw [if_neg (not_not.mpr hstate), if_neg (Nat.not_lt.mpr hlen)]
  refine ⟨⟨_, tcpSendEstablished_sockets hstored, hstate, rfl, rfl, rfl⟩, fun p hp => ?_⟩
  unfold tcpSendEstablished at hp
  rw [hstored] at hp
  dsimp only at hp
  generalize hpacket : tcpPacket _ _ _ _ _ _ = packet at hp
  rw [nicSendIpv4_sent] at hp
  have hp := append_cancel_left hp
  split_ifs at hp
  · cases hp
    subst hpacket
    refine ⟨rfl, ?_⟩
    change (Sock.payload _).length = _
    simp [Sock.payload, Sock.storePayload]

/-- An acknowledgement is compared with the untruncated sum. -/
theorem ack_seq (hs : net.sockets id = some s) (hstate : s.state = .established)
    (hblocked : s.ackEstBlocked = true) (ackSeq : ℕ) :
    ((handleTcpReceiveAckEstablished net id ackSeq).2 = true ↔
      u64 (s.seqLocal + s.sendPayloadLen) = ackSeq) ∧
    ((handleTcpReceiveAckEstablished net id ackSeq).2 = true →
      ∃ s', (handleTcpReceiveAckEstablished net id ackSeq).1.sockets id = some s' ∧
        s'.state = .established ∧ s'.seqLocal = ackSeq ∧ s'.ackEstBlocked = false) := by
  unfold handleTcpReceiveAckEstablished
  rw [hs]
  dsimp only
  rw [if_neg (by simp [hstate, hblocked])]
  split_ifs with hne
  · exact ⟨iff_of_false (by simp) hne, by simp⟩
  · have heq := not_not.mp hne
    exact ⟨iff_of_true rfl heq, fun _ => ⟨_, modifySock_sockets_some hs _, hstate, heq, rfl⟩⟩

/-- **One exchange** moves the sequence number by the length of the payload. -/
theorem Exchange.apply_seq {x : Exchange} (h : net.HasSeq id q) (hq : q + tcpMtu < 2 ^ 64)
    (hx : x.Fits) (hnet : x.apply id net = some net') :
    net'.HasSeq id (q + x.payloadLen) ∧ q + x.payloadLen + tcpMtu < 2 ^ 64 := by
  obtain ⟨⟨s, hs, hstate, hblocked, rfl, hsl⟩, -⟩ :=
    tcpSendResume_seq x.env x.payload h hx.1
  obtain ⟨haccepted, hnet⟩ := Option.ite_none_right_eq_some.mp hnet
  cases hnet
  obtain ⟨hiff, hsock⟩ := ack_seq hs hstate hblocked x.ackSeq
  obtain ⟨s', hs', hstate', hseq, -⟩ := hsock haccepted
  have hack := hiff.mp haccepted
  obtain ⟨hlen, hack'⟩ := hx
  rw [hsl, u64, Nat.mod_eq_of_lt (by omega)] at hack
  refine ⟨⟨s', hs', hstate', hseq.trans hack.symm⟩, ?_⟩
  unfold tcpMtu at *
  omega

/-- **When acknowledgements are recognised**: the sum with which they are compared must not reach 2
^ 32 over the life of the connection. -/
theorem recognised_iff {env : Env} {payload : ℕ → UInt8} {s : Sock} {xs : List Exchange}
    {p : Packet} (hs : net.sockets id = some s) (hstate : s.state = .established)
    (hseq : s.seqLocal + tcpMtu < 2 ^ 64)
    (hrun : Run (Exchange.apply id) (fun _ x => x.Fits) net xs net') (hlen : len ≤ tcpMtu)
    (hsent : (tcpSendResume env net' id payload len).1.sent = net'.sent ++ [⟨id, p⟩]) :
    Recognised (tcpSendResume env net' id payload len).1 id p ↔
      s.seqLocal + (xs.map Exchange.payloadLen).sum + len < 2 ^ 32 := by
  obtain ⟨hat, hq⟩ : net'.HasSeq id (s.seqLocal + (xs.map Exchange.payloadLen).sum) ∧
      s.seqLocal + (xs.map Exchange.payloadLen).sum + tcpMtu < 2 ^ 64 := by
    clear hsent
    induction hrun with
    | nil => exact ⟨⟨s, hs, hstate, rfl⟩, hseq⟩
    | snoc _ hok hstep ih =>
      rw [map_append, sum_append, map_singleton, sum_singleton, ← Nat.add_assoc]
      exact Exchange.apply_seq ih.1 ih.2 hok hstep
  generalize s.seqLocal + (xs.map Exchange.payloadLen).sum = q at *
  obtain ⟨⟨s₁, hs₁, hstate₁, hblocked, rfl, hsl⟩, hp⟩ :=
    tcpSendResume_seq env payload hat hlen
  obtain ⟨hp, hpl⟩ := hp p hsent
  have hsum : u64 (s₁.seqLocal + s₁.sendPayloadLen) = s₁.seqLocal + len := by
    rw [hsl, u64, Nat.mod_eq_of_lt (by omega)]
  have hpeer : u32 (p.hdr.seq + p.payload.length) = (s₁.seqLocal + len) % 2 ^ 32 := by
    rw [hp, hpl, u32, u32, Nat.mod_add_mod]
  have hack := ack_seq hs₁ hstate₁ hblocked
  constructor
  · intro hrec
    have hpeer_lt : (s₁.seqLocal + len) % 2 ^ 32 < 2 ^ 32 := Nat.mod_lt _ (by decide)
    have heq := (hack _).1.mp ((hrec _ hpeer_lt).1.mpr hpeer.symm)
    omega
  · intro hlt ackSeq _
    rw [(hack ackSeq).1, hsum, hpeer, Nat.mod_eq_of_lt hlt]
    refine ⟨eq_comm, fun heq => ?_⟩
    obtain ⟨s', hs', -, -, hclear⟩ := (hack ackSeq).2 ((hack ackSeq).1.mpr (hsum.trans heq))
    exact ⟨s', hs', hclear⟩

end Sequence

/-- An established socket after its handshake, with a number that `create_socket_tcp` chooses. -/
def chosenSeq (env : Env) : Net :=
  .ofSock { sampleSock .established with seqLocal := u64 ((newTcpTuple env default).seqLocal + 1) }

/-- The second payload of a connection that starts with a small number. -/
theorem recognised_small : ∃ net' p,
    Run (Exchange.apply 0) (fun _ x => x.Fits) (chosenSeq resolvedEnv)
      [⟨resolvedEnv, fun _ => 7, 1, 1000000003⟩] net' ∧
    (tcpSendResume resolvedEnv net' 0 (fun _ => 8) 1).1.sent = net'.sent ++ [⟨0, p⟩] ∧
    Recognised (tcpSendResume resolvedEnv net' 0 (fun _ => 8) 1).1 0 p := by
  have hrun : Run (Exchange.apply 0) (fun _ x => x.Fits) (chosenSeq resolvedEnv)
      [⟨resolvedEnv, fun _ => 7, 1, 1000000003⟩] _ := .snoc (.nil _) ⟨by decide, by decide⟩ rfl
  exact ⟨_, _, hrun, rfl, (recognised_iff rfl rfl (by decide) hrun (by decide) rfl).mpr (by decide)⟩

/-- **An acknowledgement that is not recognised**, for a connection that starts with a number above
2 ^ 32. -/
theorem large_seq_not_recognised : ∃ env p,
    (tcpSendResume env (chosenSeq env) 0 (fun _ => 7) 1).1.sent =
      (chosenSeq env).sent ++ [⟨0, p⟩] ∧
    ¬Recognised (tcpSendResume env (chosenSeq env) 0 (fun _ => 7) 1).1 0 p := by
  refine ⟨{ resolvedEnv with rand := fun i => if i = 0 then 2 else 1999999999 }, _,
    rfl, fun h => ?_⟩
  have haccepted := (h 705032706 (by decide)).1.mpr (by decide)
  revert haccepted
  decide

end CarrotOS
