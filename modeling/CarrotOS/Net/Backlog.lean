import CarrotOS.Net.Queue
import CarrotOS.Net.Receive
import CarrotOS.Net.View

/-!
# Queues of listeners

A listening socket uses the bytes behind its structure as a queue of the numbers of the child
sockets whose handshake is complete. This file says what the queue operations do to such a queue,
and what a segment does to the queues of all listeners: nothing, or it makes a child, or it
completes a child and queues its number.
-/

namespace CarrotOS

open RingQueue Word Bytes Function Option RingBuf Net

variable {l : ℕ} {f : Sock → Sock}

/-! ## Numbers in a queue -/

theorem pullBacklog_spec {net : Net} {s : Sock} {q : List ℕ} (hs : net.sockets l = some s)
    (hv : s.ring.Valid backlogBufferSize)
    (hq : s.ring.contents backlogBufferSize = q.flatMap idBytes) (hlt : ∀ c ∈ q, c < noId) :
    ∃ r : RingBuf UInt8, r.Valid backlogBufferSize ∧
      r.contents backlogBufferSize = q.tail.flatMap idBytes ∧
      pullBacklog net l = some (net.modifySock l fun s => s.setRing r, q.headD noId) := by
  have hqueued : Queued backlogBufferSize s.ring q := ⟨hv, hq, hlt⟩
  obtain ⟨hrest, hfirst⟩ := hqueued.read (by decide)
  refine ⟨_, hrest.valid, hrest.contents, ?_⟩
  unfold pullBacklog
  rw [hs]
  dsimp only
  rw [hfirst]

/-! ## Whole entries -/

section Entries

open Transition List

/-- The queue of a listener, the numbers that `push_backlog` has stored, and those that
`pull_backlog` has returned. -/
structure BacklogTrace where
  ring : RingBuf UInt8
  pushed : List ℕ
  pulled : List ℕ

inductive BacklogCall where
  | push (id : ℕ)
  | pull

namespace BacklogCall

/-- What `push_backlog` and `pull_backlog` do to the queue. A push that returns 0 and a pull that
returns -1 have failed. -/
def apply (st : BacklogTrace) : BacklogCall → Option BacklogTrace
  | push id =>
    let r := pushId backlogBufferSize st.ring id
    some ⟨r.1, if r.2 = 0 then st.pushed else st.pushed ++ [id], st.pulled⟩
  | pull =>
    let r := pullId backlogBufferSize st.ring
    some ⟨r.1, st.pushed, if r.2 = noId then st.pulled else st.pulled ++ [r.2]⟩

/-- A push finds room for the eight bytes of its number, which is not -1. -/
def Harmless (st : BacklogTrace) : BacklogCall → Prop
  | push id => id < noId ∧ 8 ≤ backlogBufferSize - 1 - st.ring.count backlogBufferSize
  | pull => True

instance (st : BacklogTrace) : DecidablePred (Harmless st)
  | push _ => inferInstanceAs (Decidable (_ ∧ _))
  | pull => inferInstanceAs (Decidable True)

end BacklogCall

/-- The queue has the numbers `q`, which are pushed and not yet pulled, each one whole. -/
def BacklogTrace.Whole (st : BacklogTrace) (q : List ℕ) : Prop :=
  Queued backlogBufferSize st.ring q ∧ st.pulled ++ q = st.pushed

variable {st st' : BacklogTrace} {q : List ℕ} {c : BacklogCall}

/-- There is always room for seven bytes at least. -/
theorem BacklogTrace.Whole.push (h : st.Whole q) (id : ℕ) : (BacklogCall.push id).apply st =
    some ⟨(pushId backlogBufferSize st.ring id).1, st.pushed ++ [id], st.pulled⟩ := by
  have hlt := count_lt h.1.valid
  have hne : (pushId backlogBufferSize st.ring id).2 ≠ 0 := by
    rw [pushId, fifoWrite8, (fifoWrite_spec (by decide) h.1.valid 8 (leByte id)).2.1]
    rw [h.1.length, show backlogBufferSize = 24416 from rfl] at hlt ⊢
    omega
  simp only [BacklogCall.apply, if_neg hne]

/-- A call keeps the entries whole exactly if it is harmless. -/
theorem BacklogTrace.Whole.step_iff (h : st.Whole q) (hstep : c.apply st = some st') :
    (∃ q', st'.Whole q') ↔ c.Harmless st := by
  cases c with
  | push id =>
    cases (h.push id).symm.trans hstep
    constructor
    · rintro ⟨q', hq', hall⟩
      obtain rfl : q' = q ++ [id] := by
        rw [← h.2, append_assoc] at hall
        exact append_cancel_left hall
      refine ⟨hq'.lt id (by simp), ?_⟩
      have hlen := h.1.length
      have hlen' := hq'.length
      rw [← length_contents, pushId, fifoWrite8,
        (fifoWrite_spec (by decide) h.1.valid 8 (leByte id)).2.2, length_append,
        length_contents, length_cells, length_append, length_singleton] at hlen'
      omega
    · rintro ⟨hid, hroom⟩
      exact ⟨q ++ [id], h.1.write (by decide) hroom hid, by rw [← append_assoc, h.2]⟩
  | pull =>
    obtain ⟨hrest, hfirst⟩ := h.1.read (by decide)
    have hall := h.2
    simp only [BacklogCall.apply, hfirst] at hstep
    cases hstep
    refine iff_of_true ⟨q.tail, hrest, ?_⟩ trivial
    cases q with
    | nil => simpa using hall
    | cons c q => simpa [(h.1.lt c mem_cons_self).ne] using hall

/-- **Entries are whole along a run of harmless calls**, and after one more call exactly if it is
harmless. -/
theorem backlogWhole_iff_harmless {st₀ : BacklogTrace} {calls : List BacklogCall}
    (h₀ : st₀.Whole []) (hrun : Run BacklogCall.apply BacklogCall.Harmless st₀ calls st) :
    (∃ q, st.Whole q) ∧ ∀ (c : BacklogCall) (st' : BacklogTrace), c.apply st = some st' →
      ((∃ q, st'.Whole q) ↔ c.Harmless st) := by
  obtain ⟨q, h⟩ := hrun.invariant (fun st => ∃ q, st.Whole q)
    (fun _ _ _ h hharmless hstep => (h.choose_spec.step_iff hstep).mpr hharmless) ⟨[], h₀⟩
  exact ⟨⟨q, h⟩, fun _ _ => h.step_iff⟩

def emptyBacklog : BacklogTrace := ⟨⟨fun _ => 0, 0, 0⟩, [], []⟩

theorem whole_emptyBacklog : emptyBacklog.Whole [] :=
  ⟨⟨by decide, rfl, nofun⟩, rfl⟩

/-- Two numbers are pushed, and the first one is pulled. -/
theorem backlogWhole_iff_harmless_two :
    ∃ st, Run BacklogCall.apply BacklogCall.Harmless emptyBacklog
    [.push 1, .push 2, .pull] st ∧ st.pushed = [1, 2] ∧ st.pulled = [1] ∧ ∃ q, st.Whole q :=
  Run.exists_of_eval (Q := fun st => st.pushed = [1, 2] ∧ st.pulled = [1]) (by decide +kernel)
    fun _ hrun hq => ⟨hq.1, hq.2, (backlogWhole_iff_harmless whole_emptyBacklog hrun).1⟩

/-- Up to 3051 numbers fit into the queue. -/
theorem exists_pushes {n : ℕ} (hn : n ≤ 3051) : ∃ st q, q.length = n ∧ st.Whole q ∧
    Run BacklogCall.apply (fun _ _ => True) emptyBacklog (replicate n (.push 1)) st := by
  induction n with
  | zero => exact ⟨_, [], rfl, whole_emptyBacklog, .nil _⟩
  | succ n ih =>
    obtain ⟨st, q, rfl, h, hrun⟩ := ih (by omega)
    have hroom : 8 ≤ backlogBufferSize - 1 - st.ring.count backlogBufferSize := by
      rw [h.1.length, show backlogBufferSize = 24416 from rfl]
      omega
    have hq := h.1.write (by decide) hroom (show 1 < noId by decide)
    have hrun' := hrun.snoc trivial (h.push 1)
    rw [← replicate_succ'] at hrun'
    exact ⟨_, q ++ [1], length_append, ⟨hq, by rw [← append_assoc, h.2]⟩, hrun'⟩

/-- **The number 3052 is torn**: seven of its bytes are queued. -/
theorem backlog_entry_torn : emptyBacklog.Whole [] ∧ ∃ st, Run BacklogCall.apply
    (fun _ _ => True) emptyBacklog (replicate 3052 (.push 1)) st ∧ ¬∃ q, st.Whole q := by
  obtain ⟨st, q, hlen, h, hrun⟩ := exists_pushes le_rfl
  have hrun' := hrun.snoc trivial (h.push 1)
  rw [← replicate_succ'] at hrun'
  refine ⟨whole_emptyBacklog, _, hrun', fun hwhole => ?_⟩
  have hroom := ((h.step_iff (h.push 1)).mp hwhole).2
  rw [h.1.length, hlen] at hroom
  exact absurd hroom (by decide)

end Entries

/-! ## Parts -/

def Net.stateOf (net : Net) (id : ℕ) : Option NetState :=
  (net.sockets id).map fun s => s.state

/-- What matters of a socket here. -/
structure QueuePart where
  state : NetState
  listenId : ℕ
  ring : RingBuf UInt8

def Sock.queuePart (s : Sock) : QueuePart :=
  ⟨s.state, s.listenId, s.ring⟩

def Net.parts (net : Net) : ℕ → Option QueuePart :=
  net.proj Sock.queuePart

def Net.pendings (net : Net) (tid : ℕ) : Option Pending :=
  (net.threads tid).bind Thread.pending

/-- The condition on a segment: the listen table has the listener at its own number, the queue of
the listener of a completed child has room for eight bytes, and no listener has exactly the tuple of
a segment with payload. -/
structure SegmentQueues (env : Env) (net : Net) (seg : Segment) : Prop where
  sameNumber : hasFlag seg.flags tcpSyn = true →
    ∀ l s k, lookupSocket env net seg = some l → net.sockets l = some s → s.state = .listen →
      findListen net (seg.tupleTcp env).toNetTuple = some k → k = l
  room : hasFlag seg.flags tcpAck = true →
    ∀ id s t, lookupSocket env net seg = some id → net.sockets id = some s →
      s.state = .synReceived → net.sockets s.listenId = some t →
      8 ≤ backlogBufferSize - 1 - t.ring.count backlogBufferSize
  noPayload : seg.payloadLen ≠ 0 → ∀ k t, net.sockets k = some t → t.state = .listen →
    netTupleEqualV4 (seg.tuple env) (some t.toNetTuple) = false

/-- A change of a slot that concerns no queue: it is as before, or the socket there did not listen
and what is there now neither listens nor starts to wait for the end of a handshake. -/
def Calm (a b : Option QueuePart) : Prop :=
  b = a ∨ ∃ p', b = some p' ∧ p'.state ≠ .listen ∧ (∀ p, a = some p → p.state ≠ .listen) ∧
    (p'.state = .synReceived → ∃ p, a = some p ∧ p.state = .synReceived ∧ p'.listenId = p.listenId)

structure CalmStep (net net' : Net) : Prop where
  parts : ∀ k, Calm (net.parts k) (net'.parts k)
  pendings : net'.pendings = net.pendings

section Calm

variable {env : Env} {net net' net'' : Net} {id : ℕ} {s : Sock}

theorem Calm.trans {a b c : Option QueuePart} (h : Calm a b) (h' : Calm b c) : Calm a c := by
  rcases h with rfl | ⟨q, rfl, hq, ha, hsyn⟩
  · exact h'
  · rcases h' with rfl | ⟨r, rfl, hr, -, hsyn'⟩
    · exact .inr ⟨q, rfl, hq, ha, hsyn⟩
    · refine .inr ⟨r, rfl, hr, ha, ?_⟩
      intro hrs
      obtain ⟨q', hq', hqs, hid⟩ := hsyn' hrs
      cases hq'
      obtain ⟨p, hp, hps, hid'⟩ := hsyn hqs
      exact ⟨p, hp, hps, hid.trans hid'⟩

theorem CalmStep.refl (net : Net) : CalmStep net net :=
  ⟨fun _ => .inl rfl, rfl⟩

theorem CalmStep.trans (h : CalmStep net net') (h' : CalmStep net' net'') : CalmStep net net'' :=
  ⟨fun k => (h.parts k).trans (h'.parts k), h'.pendings.trans h.pendings⟩

theorem calm_modifySock_of_eq (net : Net) (id : ℕ) (hf : ∀ s, (f s).queuePart = s.queuePart) :
    CalmStep net (net.modifySock id f) := by
  refine ⟨fun k => .inl ?_, rfl⟩
  exact congrFun (proj_modifySock_of_eq net id hf) k

theorem calm_modifySock (net : Net) (id : ℕ)
    (hf : ∀ s, net.sockets id = some s → Calm (some s.queuePart) (some (f s).queuePart)) :
    CalmStep net (net.modifySock id f) := by
  refine ⟨?_, rfl⟩
  intro k
  by_cases hk : k = id
  · subst hk
    unfold parts proj
    rw [modifySock_sockets_self]
    rcases hs : net.sockets k with - | s
    · exact .inl rfl
    · exact hf s hs
  · refine .inl ?_
    unfold parts proj
    rw [modifySock_sockets_of_ne _ _ _ hk]

theorem calm_of_same (hsock : net'.sockets = net.sockets) (hpend : net'.pendings = net.pendings) :
    CalmStep net net' := by
  refine ⟨fun k => .inl ?_, hpend⟩
  exact congrFun (proj_congr hsock) k

theorem calm_touch (env : Env) (net : Net) (id : ℕ) : CalmStep net (touch env net id) :=
  calm_modifySock_of_eq net id fun _ => rfl

theorem calm_nicSendIpv4 (env : Env) (net : Net) (id : ℕ) (p : Packet) :
    CalmStep net (nicSendIpv4 env net id p).1 :=
  calm_of_same (nicSendIpv4_sockets ..) (by
    unfold pendings
    rw [nicSendIpv4_threads])

theorem calm_tcpSendAck (env : Env) (net : Net) (id : ℕ) :
    CalmStep net (tcpSendAck env net id) := by
  unfold tcpSendAck
  split
  · exact .refl net
  · exact (calm_nicSendIpv4 ..).trans (calm_touch ..)

theorem calm_tcpSendSynack (env : Env) (net : Net) (id seq : ℕ) :
    CalmStep net (tcpSendSynack env net id seq) := by
  unfold tcpSendSynack
  split
  · exact .refl net
  · exact (calm_nicSendIpv4 ..).trans (calm_modifySock_of_eq _ _ fun _ => rfl)

theorem wakeAll_pendings (net : Net) (flag : WaitFlag) :
    (wakeAll net flag).pendings = net.pendings := by
  funext tid
  have hwake : ∀ t : Thread, (t.wake flag).pending = t.pending := by
    intro t
    unfold Thread.wake
    split <;> rfl
  unfold pendings wakeAll
  dsimp only
  split
  · cases net.threads tid with
    | none => rfl
    | some t => exact hwake t
  · rfl

theorem calm_wakeAll (net : Net) (flag : WaitFlag) : CalmStep net (wakeAll net flag) :=
  calm_of_same rfl (wakeAll_pendings net flag)

theorem resumeFirst_pendings (net : Net) (listenId : ℕ) :
    (resumeFirstThreadPendingOnListen net listenId).pendings = net.pendings := by
  unfold resumeFirstThreadPendingOnListen
  split
  · rfl
  · rename_i i _
    funext tid
    unfold pendings
    dsimp only
    by_cases ht : tid = i
    · subst ht
      rw [update_self]
      cases net.threads tid <;> rfl
    · rw [update_of_ne ht]

theorem calm_resumeFirst (net : Net) (listenId : ℕ) :
    CalmStep net (resumeFirstThreadPendingOnListen net listenId) := by
  refine calm_of_same ?_ (resumeFirst_pendings net listenId)
  unfold resumeFirstThreadPendingOnListen
  split <;> rfl

theorem calm_handleTcpReceiveAckEstablished (net : Net) (id ackSeq : ℕ) :
    CalmStep net (handleTcpReceiveAckEstablished net id ackSeq).1 := by
  unfold handleTcpReceiveAckEstablished
  split
  · exact .refl net
  split
  · exact .refl net
  split
  · exact .refl net
  · refine CalmStep.trans ?_ (calm_wakeAll _ _)
    exact calm_modifySock_of_eq net id fun _ => rfl

theorem calm_onAck (net : Net) (seg : Segment) (id : ℕ) : CalmStep net (onAck net seg id) := by
  unfold onAck
  split
  · exact calm_handleTcpReceiveAckEstablished net id seg.ackSeq
  · exact .refl net

theorem calm_leave {a : Option QueuePart} {p' : QueuePart}
    (ha : ∀ p, a = some p → p.state ≠ .listen)
    (hp' : p'.state ≠ .listen) (hsyn : p'.state ≠ .synReceived) : Calm a (some p') :=
  .inr ⟨p', rfl, hp', ha, fun h => absurd h hsyn⟩

theorem calm_ring {p : QueuePart} (hp : p.state ≠ .listen) (q : RingBuf UInt8) :
    Calm (some p) (some { p with ring := q }) := by
  refine .inr ⟨_, rfl, hp, ?_, fun h => ⟨p, rfl, h, rfl⟩⟩
  rintro p' hp'
  cases hp'
  exact hp

theorem calm_ack_then (env : Env) (hs : net.sockets id = some s) (hlisten : s.state ≠ .listen)
    {g : Sock → Sock} (hf : ∀ t, (f t).queuePart = t.queuePart)
    (hg : ∀ t, (g t).state ≠ .listen ∧ (g t).state ≠ .synReceived) :
    CalmStep net ((tcpSendAck env (net.modifySock id f) id).modifySock id g) := by
  have hsend := (calm_modifySock_of_eq net id hf).trans (calm_tcpSendAck env _ id)
  refine hsend.trans (calm_modifySock _ _ ?_)
  intro t ht
  rw [tcpSendAck_sockets, touch, modifySock_sockets_self, modifySock_sockets_self, hs] at ht
  cases ht
  refine calm_leave ?_ (hg _).1 (hg _).2
  rintro p hp
  cases hp
  have hpart := congrArg QueuePart.state (hf s)
  exact hpart ▸ hlisten

theorem calm_onSynSent (hs : net.sockets id = some s) (hstate : s.state = .synSent)
    (env : Env) (seg : Segment) : CalmStep net (onSynSent env net seg id) := by
  unfold onSynSent
  split
  · refine calm_ack_then env hs ?_ (fun _ => rfl) fun _ => ⟨nofun, nofun⟩
    rw [hstate]
    exact nofun
  · exact .refl net

theorem calm_onFin (hs : net.sockets id = some s) (hstate : s.state = .established)
    (env : Env) (seg : Segment) : CalmStep net (onFin env net seg id) := by
  unfold onFin
  split
  · refine calm_ack_then env hs ?_ (fun _ => rfl) fun _ => ⟨nofun, nofun⟩
    rw [hstate]
    exact nofun
  · exact .refl net

theorem calm_handleTcpEstablishedPacket (env : Env) (net : Net) (seg : Segment)
    (hno : ∀ k t, net.sockets k = some t → t.state = .listen →
      netTupleEqualV4 (seg.tuple env) (some t.toNetTuple) = false) :
    CalmStep net (handleTcpEstablishedPacket env net seg) := by
  unfold handleTcpEstablishedPacket
  split
  · exact .refl net
  · rename_i k hfound
    obtain ⟨t, ht, hequal⟩ := findSocketNotListen_spec hfound
    have hlisten : t.state ≠ .listen := by
      intro h
      rw [hno k t ht h] at hequal
      cases hequal
    refine CalmStep.trans ?_ (calm_wakeAll _ _)
    refine CalmStep.trans ?_ (calm_tcpSendAck env _ k)
    have hseq : CalmStep net
        (net.modifySock k fun s => { s with seqRemote := u64 (s.seqRemote + seg.payloadLen) }) :=
      calm_modifySock_of_eq net k fun _ => rfl
    refine hseq.trans (calm_modifySock _ k ?_)
    intro t' ht'
    rw [modifySock_sockets_some ht] at ht'
    cases ht'
    exact calm_ring (p := t.queuePart) hlisten _

theorem calm_onEstablished (hs : net.sockets id = some s) (hstate : s.state = .established)
    {seg : Segment} (hq : SegmentQueues env net seg) :
    CalmStep net (onPayload env (onAck (onFin env net seg id) seg id) seg id) := by
  have hcalm := (calm_onFin hs hstate env seg).trans (calm_onAck _ seg id)
  have heffect := (onFin_effect env hs seg).onAck seg
  refine hcalm.trans ?_
  unfold onPayload
  split
  · exact calm_touch env _ id
  rename_i hlen
  split
  · exact .refl _
  split
  · exact .refl _
  refine CalmStep.trans (calm_handleTcpEstablishedPacket env _ seg ?_) (calm_touch env _ id)
  -- a listener is not the socket of the segment, so it is as it was before
  intro k t ht hlisten
  by_cases hk : k = id
  · subst hk
    obtain ⟨s1, hs1, hpart⟩ := heffect.part
    obtain rfl := some.inj (hs1.symm.trans ht)
    split at hpart
    · exact absurd (hlisten.symm.trans (congrArg (fun p => p.2.2) hpart)) nofun
    · have hstate1 : s1.state = s.state := congrArg (fun p => p.2.2) hpart
      rw [hlisten, hstate] at hstate1
      cases hstate1
  · exact hq.noPayload hlen k t ((heffect.others k hk).symm.trans ht) hlisten

theorem SegmentMove.target {v v' : View} (h : SegmentMove v v') :
    v'.state ≠ .listen ∧ v'.state ≠ .synReceived := by
  cases h <;> exact ⟨nofun, nofun⟩

theorem onClosing_state (seg : Segment) (hlisten : s.state ≠ .listen)
    (hsyn : s.state ≠ .synReceived) :
    (onClosing seg s).state ≠ .listen ∧ (onClosing seg s).state ≠ .synReceived := by
  rcases onClosing_view seg s with hsame | hmove
  · have hstate : (onClosing seg s).state = s.state := congrArg View.state hsame
    rw [hstate]
    exact ⟨hlisten, hsyn⟩
  · exact hmove.target

theorem calm_onClosing (hs : net.sockets id = some s) (hlisten : s.state ≠ .listen)
    (hsyn : s.state ≠ .synReceived) (seg : Segment) :
    CalmStep net (net.modifySock id (onClosing seg)) := by
  refine calm_modifySock net id ?_
  intro t ht
  cases hs.symm.trans ht
  have hclosing := onClosing_state seg hlisten hsyn
  refine calm_leave ?_ hclosing.1 hclosing.2
  rintro p hp
  cases hp
  exact hlisten

end Calm

/-! ## One segment -/

/-- What a segment does to the queues. -/
inductive QueueEffect (env : Env) (seg : Segment) (net net' : Net) : Prop
  | calm (h : CalmStep net net')
      (hsame : ∀ id, lookupSocket env net seg = some id → net.stateOf id = some .synReceived →
        net'.stateOf id = some .synReceived)
  | child (l k : ℕ) (q : RingBuf UInt8) (hlookup : lookupSocket env net seg = some l)
      (hlisten : net.stateOf l = some .listen) (hfree : net.parts k = none)
      (hparts : net'.parts = update net.parts k (some ⟨.synReceived, l, q⟩))
      (hpend : net'.pendings = net.pendings)
  | complete (id : ℕ) (s t : Sock) (net₁ : Net) (hlookup : lookupSocket env net seg = some id)
      (hack : hasFlag seg.flags tcpAck = true)
      (hs : net.sockets id = some s) (hstate : s.state = .synReceived)
      (ht : net.sockets s.listenId = some t)
      (hpush : net₁.parts = update net.parts s.listenId
        (some { t.queuePart with ring := (pushId backlogBufferSize t.ring id).1 }))
      (hpend : net₁.pendings = net.pendings)
      (hcalm : CalmStep net₁ net') (hest : net'.stateOf id = some .established)

section Segment

variable {env : Env} {net net' : Net} {id : ℕ} {s : Sock} {seg : Segment}

theorem stateOf_eq_parts (net : Net) (id : ℕ) :
    net.stateOf id = (net.parts id).map QueuePart.state := by
  rw [stateOf, parts, proj, map_map]
  rfl

theorem parts_of_sockets (hs : net.sockets id = some s) : net.parts id = some s.queuePart :=
  proj_of_sockets hs

theorem CalmStep.listener (h : CalmStep net net') {p : QueuePart} (hp : net.parts id = some p)
    (hlisten : p.state = .listen) : net'.parts id = some p := by
  rcases h.parts id with hsame | ⟨-, -, -, hnot, -⟩
  · exact hsame.trans hp
  · exact absurd hlisten (hnot p hp)

theorem CalmStep.listener_of (h : CalmStep net net') {p : QueuePart} (hp : net'.parts id = some p)
    (hlisten : p.state = .listen) : net.parts id = some p := by
  rcases h.parts id with hsame | ⟨p', hp', hnot, -⟩
  · exact hsame.symm.trans hp
  · cases hp'.symm.trans hp
    exact absurd hlisten hnot

theorem tcpSendSynack_parts (env : Env) (net : Net) (id seq : ℕ) :
    (tcpSendSynack env net id seq).parts = net.parts := by
  unfold tcpSendSynack
  split
  · rfl
  · refine Eq.trans (proj_modifySock_of_eq _ _ ?_) (proj_congr (nicSendIpv4_sockets ..))
    intro s
    rfl

theorem resumeFirst_parts (net : Net) (l : ℕ) :
    (resumeFirstThreadPendingOnListen net l).parts = net.parts := by
  refine proj_congr ?_
  unfold resumeFirstThreadPendingOnListen
  split <;> rfl

theorem touch_parts (env : Env) (net : Net) (id : ℕ) : (touch env net id).parts = net.parts :=
  proj_modifySock_of_eq net id fun _ => rfl

theorem QueueEffect.then_touch (h : QueueEffect env seg net net') (id : ℕ) :
    QueueEffect env seg net (touch env net' id) := by
  have hparts := touch_parts env net' id
  have hpend := (calm_touch env net' id).pendings
  cases h with
  | calm h hsame =>
    refine .calm (h.trans (calm_touch env net' id)) ?_
    intro k hk hsyn
    rw [stateOf_eq_parts, hparts, ← stateOf_eq_parts]
    exact hsame k hk hsyn
  | child l k q hlookup hlisten hfree h hp =>
    exact .child l k q hlookup hlisten hfree (hparts.trans h) (hpend.trans hp)
  | complete k s t net1 hlookup hack hs hstate ht hpush hp hcalm hest =>
    refine .complete k s t net1 hlookup hack hs hstate ht hpush hp (hcalm.trans (calm_touch ..)) ?_
    rw [stateOf_eq_parts, hparts, ← stateOf_eq_parts]
    exact hest

theorem QueueEffect.of_calm (h : CalmStep net net') (hlookup : lookupSocket env net seg = some id)
    (hs : net.sockets id = some s) (hstate : s.state ≠ .synReceived) :
    QueueEffect env seg net net' := by
  refine .calm h ?_
  intro k hk hsyn
  cases hlookup.symm.trans hk
  rw [stateOf, hs] at hsyn
  exact absurd (some.inj hsyn) hstate

theorem createChild_queueEffect (hlookup : lookupSocket env net seg = some l)
    (hs : net.sockets l = some s) (hlisten : s.state = .listen)
    (h : createChild env net seg l = some net') : QueueEffect env seg net net' := by
  unfold createChild at h
  rcases hcreate : createSocketTcp env net (seg.tupleTcp env) with ⟨net1, k⟩
  rw [hcreate] at h
  dsimp only at h
  split at h
  · rename_i hk
    obtain ⟨hfree, rfl⟩ := createSocketTcp_spec hcreate hk
    cases h
    refine QueueEffect.then_touch ?_ k
    let child : Sock :=
      { toNetTupleTcp := newTcpTuple env (seg.tupleTcp env), area := env.freshArea }
    refine .child l k child.ring hlookup ?_ ?_ ?_ (calm_tcpSendSynack ..).pendings
    · rw [stateOf, hs, map_some, hlisten]
    · rw [parts, proj, hfree]
      rfl
    · rw [tcpSendSynack_parts]
      refine proj_modifySock_of_update (proj_update net k child)
        (g := fun p => QueuePart.mk .synReceived l p.ring) ?_
      intro s
      rfl
  · cases h

theorem onListen_queueEffect (hq : SegmentQueues env net seg)
    (hlookup : lookupSocket env net seg = some id) (hs : net.sockets id = some s)
    (hlisten : s.state = .listen) (h : onListen env net seg = some net') :
    QueueEffect env seg net net' := by
  have hcalm : ∀ net', CalmStep net net' → QueueEffect env seg net net' := fun _ h =>
    .of_calm h hlookup hs (by rw [hlisten]; exact nofun)
  unfold onListen at h
  split at h
  · rename_i hsyn
    split at h
    · cases h
      exact hcalm _ (.refl _)
    · rename_i k hk
      split at h
      · cases h
        exact hcalm _ (calm_tcpSendSynack ..)
      · obtain rfl := hq.sameNumber hsyn id s k hlookup hs hlisten hk
        exact createChild_queueEffect hlookup hs hlisten h
  · cases h
    exact hcalm _ (.refl _)

/-- A completed handshake, when the number of the child fits into the queue. -/
theorem onSynReceived_queueEffect (hlookup : lookupSocket env net seg = some id)
    (hs : net.sockets id = some s) (hstate : s.state = .synReceived) (hself : s.listenId ≠ id)
    (hroom : hasFlag seg.flags tcpAck = true → ∀ t, net.sockets s.listenId = some t →
      (pushId backlogBufferSize t.ring id).2 ≠ 0)
    (h : onSynReceived net seg id s = some net') : QueueEffect env seg net net' := by
  unfold onSynReceived at h
  split at h
  · rename_i hack
    unfold pushBacklog at h
    rcases ht : net.sockets s.listenId with - | t
    · rw [ht] at h
      cases h
    rw [ht] at h
    dsimp only at h
    rw [if_neg (hroom hack t ht)] at h
    obtain rfl := some.inj h
    set net1 := net.modifySock s.listenId fun s' => s'.setRing
      (pushId backlogBufferSize t.ring id).1 with hnet1
    have hqueued : net1.sockets id = some s := by
      rw [hnet1, modifySock_sockets_of_ne _ _ _ hself.symm, hs]
    refine .complete id s t net1 hlookup hack hs hstate ht ?_ rfl ?_ ?_
    · exact proj_modifySock_some ht _
    · refine CalmStep.trans (calm_modifySock net1 id ?_) (calm_resumeFirst _ _)
      intro s' hs'
      cases hqueued.symm.trans hs'
      refine calm_leave ?_ nofun nofun
      rintro p hp
      cases hp
      rw [Sock.queuePart, hstate]
      exact nofun
    · rw [stateOf_eq_parts, resumeFirst_parts, ← stateOf_eq_parts, stateOf,
        modifySock_sockets_some hqueued]
      rfl
  · cases h
    exact .calm (.refl _) fun _ _ hsyn => hsyn

/-- **What a segment does to the queues**, when it meets the condition and the listeners of the
children that wait have valid queues. -/
theorem handleSegment_queueEffect (hq : SegmentQueues env net seg)
    (hchild : ∀ k s, net.sockets k = some s → s.state = .synReceived →
      s.listenId ≠ k ∧ ∀ t, net.sockets s.listenId = some t → t.ring.Valid backlogBufferSize)
    (h : handleSegment env net seg = some net') : QueueEffect env seg net net' := by
  unfold handleSegment at h
  split at h
  · cases h
    exact .calm (.refl _) fun _ _ hsyn => hsyn
  rename_i id hlookup
  split at h
  · cases h
    exact .calm (.refl _) fun _ _ hsyn => hsyn
  rename_i s hs
  unfold onSegment at h
  split at h
  · rename_i hstate
    obtain ⟨net1, h1, rfl⟩ := map_eq_some_iff.mp h
    exact (onListen_queueEffect hq hlookup hs hstate h1).then_touch id
  · rename_i hstate
    cases h
    refine .of_calm ((calm_onSynSent hs hstate env seg).trans (calm_touch ..)) hlookup hs ?_
    simp [hstate]
  · rename_i hstate
    obtain ⟨net1, h1, rfl⟩ := map_eq_some_iff.mp h
    obtain ⟨hself, hvalid⟩ := hchild id s hs hstate
    refine QueueEffect.then_touch ?_ id
    refine onSynReceived_queueEffect hlookup hs hstate hself ?_ h1
    intro hack t ht
    have hroom := hq.room hack id s t hlookup hs hstate ht
    exact (pushId_spec (by decide) (hvalid t ht) hroom id).1
  · rename_i hstate
    cases h
    refine .of_calm (calm_onEstablished hs hstate hq) hlookup hs ?_
    simp [hstate]
  · rename_i hlisten _ hsyn _
    cases h
    exact .of_calm ((calm_onClosing hs hlisten hsyn seg).trans (calm_touch ..)) hlookup hs hsyn

end Segment

end CarrotOS
