import CarrotOS.Lib.Run
import CarrotOS.Net.TcpReceive

/-!
# The received stream

For one established connection and the segments of one remote byte stream, the bytes handed to
readers followed by those in the receive queue should be the stream up to the last acknowledged
byte. The code keeps this when every FIN and every accepted payload is the one that is expected
next, and fits.
-/

namespace CarrotOS

open RingQueue Word Transition List Option

variable {s t : Sock} {seg : Segment} {k : ℕ} {q : RingBuf UInt8} {net' : Net}

/-! ## Streams and runs -/

/-- The byte stream of one connection: its addresses and ports, the sequence number of its first
byte, its bytes and their number. The FIN takes the number after the last byte. -/
structure Stream where
  srcIp : ℕ
  dstIp : ℕ
  srcPort : ℕ
  dstPort : ℕ
  start : ℕ
  bytes : ℕ → UInt8
  length : ℕ

/-- The segment carries the part of the stream from `off` on, without a SYN. -/
structure Segment.OfStream (seg : Segment) (w : Stream) (off : ℕ) : Prop where
  srcIp : seg.srcIp = w.srcIp
  dstIp : seg.dstIp = w.dstIp
  srcPort : seg.srcPort = w.srcPort
  dstPort : seg.dstPort = w.dstPort
  seq : seg.seq = u32 (w.start + off)
  noSyn : hasFlag seg.flags tcpSyn = false
  bytes : ∀ k < seg.payloadLen, seg.payload k = w.bytes (off + k)
  inside : off + seg.payloadLen ≤ w.length
  fin : hasFlag seg.flags tcpFin = true → off + seg.payloadLen = w.length

/-- The steps of a run: a frame with the place of its payload in the stream, and the two parts of
`read_socket_tcp`. -/
inductive RecvCall where
  | segment (off : ℕ) (f : Frame)
  | read (tid : ℕ) (payload : ℕ → UInt8) (payloadLen : ℕ)
  | resume (tid : ℕ)

/-- The tables, and the bytes that readers have obtained from the socket. -/
structure RecvState where
  net : Net
  taken : List UInt8

def RecvCall.step (id : ℕ) (st : RecvState) : Env × RecvCall → Option RecvState
  | (env, .segment _ f) => (handleTcpV4 env st.net f).map fun net => { st with net }
  | (_, .read tid payload payloadLen) =>
    match st.net.threads tid with
    | some ⟨_, .running, _, none⟩ =>
      (readSocketEnter st.net tid id payload payloadLen).map fun r => ⟨r.net, st.taken ++ r.bytes⟩
    | _ => none
  | (_, .resume tid) =>
    match st.net.threads tid with
    | some ⟨_, .ready, _, some (.read id' payload payloadLen)⟩ =>
      if id' = id then
        (readSocketResume st.net id payload payloadLen).map fun r =>
          ⟨finishThread r.net tid, st.taken ++ r.bytes⟩
      else none
    | _ => none

def RecvCall.OfStream (w : Stream) : RecvCall → Prop
  | .segment off f => (decodeSegment f).OfStream w off
  | _ => True

def Sock.recvRoom (s : Sock) : ℕ :=
  recvBufferSize - 1 - s.ring.count recvBufferSize

/-- A FIN comes when the whole stream has been received, and a payload that passes the test of the
sequence number is the next part of the stream and fits into the receive queue. -/
def SegmentFits (w : Stream) (off : ℕ) (seg : Segment) (s : Sock) : Prop :=
  (hasFlag seg.flags tcpFin = true → s.seqRemote = w.start + off + seg.payloadLen) ∧
  (hasFlag seg.flags tcpFin = false → seg.payloadLen ≠ 0 →
    s.seqRemote = 0 ∨ seg.seq = s.seqRemote →
    s.seqRemote = w.start + off ∧ seg.payloadLen ≤ s.recvRoom)

/-- The condition on a step: a segment fits the socket while it is established. -/
def RecvCall.Ok (w : Stream) (id : ℕ) (st : RecvState) : RecvCall → Prop
  | .segment off f =>
    ∀ s, st.net.sockets id = some s → s.state = .established →
      SegmentFits w off (decodeSegment f) s
  | _ => True

/-- The bytes taken by readers and those in the queue are the initial contents followed by the
bytes of the stream that are acknowledged, the number of which is `seq_remote - start` and at most
the length of the stream. -/
def StreamIntact (w : Stream) (id : ℕ) (initial : List UInt8) (st : RecvState) : Prop :=
  ∃ s, st.net.sockets id = some s ∧
    st.taken ++ s.ring.contents recvBufferSize =
      initial ++ cells (min (s.seqRemote - w.start) w.length) w.bytes

/-! ## Lookups -/

/-- The tuple of a table entry matches the stream, with the wildcards of `net_tuple_match_v4`. -/
def Stream.matches (w : Stream) (t : NetTuple) : Bool :=
  t.protocol == .tcp && (t.localIpL == w.dstIp || t.localIpL == 0) && t.localPort == w.dstPort &&
    (t.remoteIpL == w.srcIp || t.remoteIpL == 0) &&
    (t.remotePort == w.srcPort || t.remotePort == 0) &&
    t.version == 4

section Lookup

variable {env : Env} {net : Net} {w : Stream} {seg : Segment} {off id : ℕ}

theorem matches_of_netTupleMatchV4 {src : NetTuple} (hp : src.protocol = .tcp)
    (hl : src.localIpL = w.dstIp) (hlp : src.localPort = w.dstPort) (hr : src.remoteIpL = w.srcIp)
    (hrp : src.remotePort = w.srcPort) (hv : src.version = 4) {t : NetTuple}
    (h : netTupleMatchV4 src (some t) = true) : w.matches t = true := by
  simp only [netTupleMatchV4, Bool.and_eq_true, Bool.or_eq_true, beq_iff_eq, hp, hl, hlp, hr, hrp,
    hv] at h
  simp only [Stream.matches, Bool.and_eq_true, Bool.or_eq_true, beq_iff_eq]
  tauto

theorem lookupSocket_matches (hseg : seg.OfStream w off) (h : lookupSocket env net seg = some id) :
    ∃ s, net.sockets id = some s ∧ w.matches s.toNetTuple = true := by
  have hmatch : ∃ s, net.sockets id = some s ∧
      netTupleMatchV4 (seg.tupleTcp env).toNetTuple (some s.toNetTuple) = true := by
    unfold lookupSocket at h
    split at h
    · rename_i found hfound
      cases h
      obtain ⟨s, hs, hp⟩ := findSocketNotListen_spec hfound
      exact ⟨s, hs, netTupleMatchV4_of_equal hp⟩
    · exact findSocket_spec h
  obtain ⟨s, hs, hp⟩ := hmatch
  exact ⟨s, hs, matches_of_netTupleMatchV4 rfl hseg.dstIp hseg.dstPort hseg.srcIp
    hseg.srcPort rfl hp⟩

theorem findSocketNotListen_matches (hseg : seg.OfStream w off)
    (h : findSocketNotListen net (seg.tuple env) = some id) :
    ∃ s, net.sockets id = some s ∧ w.matches s.toNetTuple = true := by
  obtain ⟨s, hs, hp⟩ := findSocketNotListen_spec h
  exact ⟨s, hs, matches_of_netTupleMatchV4 rfl hseg.dstIp hseg.dstPort hseg.srcIp hseg.srcPort rfl
    (netTupleMatchV4_of_equal hp)⟩

end Lookup

/-! ## The socket and the others -/

/-- What matters of a socket here: the queue, the next expected number and the state. -/
def Sock.recvPart (s : Sock) : RingBuf UInt8 × ℕ × NetState :=
  (s.ring, s.seqRemote, s.state)

theorem eq_of_recvPart {s' : Sock} {n : ℕ} {t : NetState} (h : s'.recvPart = (q, n, t)) :
    s'.ring = q ∧ s'.seqRemote = n ∧ s'.state = t := by
  obtain ⟨hring, hrest⟩ := Prod.mk.inj h
  obtain ⟨hseq, hstate⟩ := Prod.mk.inj hrest
  exact ⟨hring, hseq, hstate⟩

/-- After the step the socket `id` has the part `p`, and every other socket is as before. -/
structure RecvEffect (id : ℕ) (net net' : Net) (p : RingBuf UInt8 × ℕ × NetState) : Prop where
  part : ∃ s', net'.sockets id = some s' ∧ s'.recvPart = p
  others : ∀ k, k ≠ id → net'.sockets k = net.sockets k

/-- After the step the socket `id` has the part `p`, and every other socket is as before or
listens. -/
structure RecvOutcome (id : ℕ) (net net' : Net) (p : RingBuf UInt8 × ℕ × NetState) : Prop where
  part : ∃ s', net'.sockets id = some s' ∧ s'.recvPart = p
  others : ∀ k, k ≠ id →
    net'.sockets k = net.sockets k ∨ ∃ t', net'.sockets k = some t' ∧ t'.state = .listen

section Effect

variable {env : Env} {net net1 net2 : Net} {id : ℕ} {p : RingBuf UInt8 × ℕ × NetState}

theorem RecvEffect.refl (hs : net.sockets id = some s) :
    RecvEffect id net net s.recvPart :=
  ⟨⟨s, hs, rfl⟩, fun _ _ => rfl⟩

section

variable (h : RecvEffect id net net1 p)
include h

theorem RecvEffect.outcome : RecvOutcome id net net1 p :=
  ⟨h.part, fun k hk => .inl (h.others k hk)⟩

theorem RecvEffect.of_sockets (hsock : net2.sockets = net1.sockets) :
    RecvEffect id net net2 p := by
  obtain ⟨hpart, hothers⟩ := h
  rw [← hsock] at hpart hothers
  exact ⟨hpart, hothers⟩

theorem RecvEffect.modify {f : Sock → Sock}
    {g : RingBuf UInt8 × ℕ × NetState → RingBuf UInt8 × ℕ × NetState}
    (hf : ∀ s, s.recvPart = p → (f s).recvPart = g p) :
    RecvEffect id net (net1.modifySock id f) (g p) := by
  obtain ⟨⟨s, hs, hpart⟩, hothers⟩ := h
  refine ⟨⟨f s, modifySock_sockets_some hs f, hf s hpart⟩, ?_⟩
  intro k hk
  rw [modifySock_sockets_of_ne _ _ _ hk]
  exact hothers k hk

theorem RecvEffect.touch (env : Env) :
    RecvEffect id net (touch env net1 id) p :=
  h.modify (g := fun p => p) fun _ h => h ▸ rfl

theorem RecvEffect.sendAck (env : Env) :
    RecvEffect id net (tcpSendAck env net1 id) p :=
  (h.touch env).of_sockets (tcpSendAck_sockets env net1 id)

theorem RecvEffect.ack (ackSeq : ℕ) :
    RecvEffect id net (handleTcpReceiveAckEstablished net1 id ackSeq).1 p := by
  unfold handleTcpReceiveAckEstablished
  split
  · exact h
  split
  · exact h
  split
  · exact h
  · exact (h.modify (f := fun s =>
        { s with seqLocal := u64 (s.seqLocal + s.sendPayloadLen), ackEstBlocked := false })
      (g := fun p => p) fun _ h => h ▸ rfl).of_sockets rfl

theorem RecvEffect.onAck (seg : Segment) :
    RecvEffect id net (onAck net1 seg id) p := by
  unfold CarrotOS.onAck
  split
  · exact h.ack seg.ackSeq
  · exact h

end

theorem onFin_effect (env : Env) (hs : net.sockets id = some s) (seg : Segment) :
    RecvEffect id net (onFin env net seg id)
      (if hasFlag seg.flags tcpFin = true then (s.ring, u64 (s.seqRemote + 1), .closeWait)
       else s.recvPart) := by
  unfold onFin
  split
  · have h1 :=
      (RecvEffect.refl hs).modify (f := fun s => { s with seqRemote := u64 (s.seqRemote + 1) })
      (g := fun p => (p.1, u64 (p.2.1 + 1), p.2.2)) fun _ h => h ▸ rfl
    exact (h1.sendAck env).modify (f := fun s => { s with state := .closeWait })
      (g := fun p => (p.1, p.2.1, .closeWait)) fun _ h => h ▸ rfl
  · exact .refl hs

theorem handleTcpEstablishedPacket_spec (hfound : findSocketNotListen net (seg.tuple env) = some k)
    (ht : net.sockets k = some t) :
    RecvEffect k net (handleTcpEstablishedPacket env net seg)
      ((fifoWrite8 recvBufferSize t.ring seg.payloadLen seg.payload).ring,
        u64 (t.seqRemote + seg.payloadLen), t.state) := by
  unfold handleTcpEstablishedPacket
  rw [hfound]
  have h1 := (RecvEffect.refl ht).modify
    (f := fun s => { s with seqRemote := u64 (s.seqRemote + seg.payloadLen) })
    (g := fun p => (p.1, u64 (p.2.1 + seg.payloadLen), p.2.2)) fun _ h => h ▸ rfl
  have h2 := h1.modify
    (f := fun s => s.setRing (fifoWrite8 recvBufferSize s.ring seg.payloadLen seg.payload).ring)
    (g := fun p => ((fifoWrite8 recvBufferSize p.1 seg.payloadLen seg.payload).ring, p.2))
    fun _ h => h ▸ rfl
  exact (h2.sendAck env).of_sockets rfl

theorem RecvEffect.outcome_of_other {q : RingBuf UInt8 × ℕ}
    (h : RecvEffect k net net1 (q.1, q.2, .listen)) (hk : id ≠ k) (hs : net.sockets id = some s) :
    RecvOutcome id net net1 s.recvPart := by
  refine ⟨⟨s, (h.others id hk).trans hs, rfl⟩, ?_⟩
  intro j hj
  by_cases hjk : j = k
  · subst hjk
    obtain ⟨t', ht', hpart⟩ := h.part
    exact .inr ⟨t', ht', (eq_of_recvPart hpart).2.2⟩
  · exact .inl (h.others j hjk)

theorem RecvOutcome.after (h : RecvEffect id net net1 p) {q : RingBuf UInt8 × ℕ × NetState}
    (h' : RecvOutcome id net1 net2 q) : RecvOutcome id net net2 q := by
  refine ⟨h'.part, ?_⟩
  intro k hk
  rcases h'.others k hk with hsame | hlisten
  · exact .inl (hsame.trans (h.others k hk))
  · exact .inr hlisten

theorem RecvOutcome.touch (h : RecvOutcome id net net1 p) (env : Env) :
    RecvOutcome id net (touch env net1 id) p := by
  obtain ⟨s', hs', hpart⟩ := h.part
  obtain ⟨hpart', hothers⟩ := (RecvEffect.refl hs').touch env
  refine ⟨hpart ▸ hpart', ?_⟩
  intro k hk
  rw [hothers k hk]
  exact h.others k hk

end Effect

/-! ## One segment -/

/-- No socket but listeners and the socket `id` matches the stream. -/
def OnlyListeners (w : Stream) (id : ℕ) (net : Net) : Prop :=
  ∀ k t, k ≠ id → net.sockets k = some t → w.matches t.toNetTuple = true → t.state = .listen

section Segment

variable {env : Env} {net net' : Net} {w : Stream} {seg : Segment} {off id : ℕ} {s : Sock}

theorem OnlyListeners.outcome {p : RingBuf UInt8 × ℕ × NetState} (h : OnlyListeners w id net)
    (hout : RecvOutcome id net net' p) : OnlyListeners w id net' := by
  intro k t hk ht hmatch
  rcases hout.others k hk with hsame | ⟨t', ht', hlisten⟩
  · exact h k t hk (hsame.symm.trans ht) hmatch
  · cases ht'.symm.trans ht
    exact hlisten

theorem onSegment_listener (hseg : seg.OfStream w off) (ht : net.sockets k = some t)
    (hlisten : t.state = .listen) (hk : id ≠ k) (hs : net.sockets id = some s)
    (h : onSegment env net seg k t = some net') : RecvOutcome id net net' s.recvPart := by
  unfold onSegment at h
  rw [hlisten] at h
  obtain ⟨net1, h1, rfl⟩ := map_eq_some_iff.mp h
  unfold onListen at h1
  rw [hseg.noSyn] at h1
  cases h1
  have heffect := (RecvEffect.refl ht).touch env
  rw [Sock.recvPart, hlisten] at heffect
  exact heffect.outcome_of_other (q := (t.ring, t.seqRemote)) hk hs

/-- The payload of a segment of the stream: it is refused, or it goes to the queue. -/
theorem onPayload_outcome (env : Env) (hseg : seg.OfStream w off) (honly : OnlyListeners w id net)
    (hs : net.sockets id = some s) :
    RecvOutcome id net (onPayload env net seg id) s.recvPart ∨
      seg.payloadLen ≠ 0 ∧ (s.seqRemote = 0 ∨ seg.seq = s.seqRemote) ∧
      RecvOutcome id net (onPayload env net seg id)
        ((fifoWrite8 recvBufferSize s.ring seg.payloadLen seg.payload).ring,
          u64 (s.seqRemote + seg.payloadLen), s.state) := by
  unfold onPayload
  split
  · exact .inl ((RecvEffect.refl hs).touch env).outcome
  rename_i hlen
  rw [hs]
  dsimp only
  split
  · exact .inl (RecvEffect.refl hs).outcome
  rename_i hpass
  have hpass : s.seqRemote = 0 ∨ seg.seq = s.seqRemote := by
    by_contra hno
    exact hpass (not_or.mp hno)
  rcases hfound : findSocketNotListen net (seg.tuple env) with - | k
  · -- the lookup by the second tuple fails, and the payload is dropped
    have hsame : handleTcpEstablishedPacket env net seg = net := by
      unfold handleTcpEstablishedPacket
      rw [hfound]
    rw [hsame]
    exact .inl ((RecvEffect.refl hs).touch env).outcome
  · obtain ⟨t, ht, hmatch⟩ := findSocketNotListen_matches hseg hfound
    have heffect := handleTcpEstablishedPacket_spec hfound ht
    by_cases hk : id = k
    · subst hk
      cases hs.symm.trans ht
      exact .inr ⟨hlen, hpass, (heffect.touch env).outcome⟩
    · rw [honly k t (Ne.symm hk) ht hmatch] at heffect
      exact .inl ((heffect.outcome_of_other (q := (_, _)) hk hs).touch env)

theorem seq_le (hseg : seg.OfStream w off) : seg.seq ≤ w.start + off := by
  rw [hseg.seq]
  exact Nat.mod_le _ _

/-- **One segment** of the stream changes nothing, closes after the whole stream, or appends the
next part of it. -/
theorem handleSegment_outcome (hseg : seg.OfStream w off) (honly : OnlyListeners w id net)
    (hs : net.sockets id = some s) (hstate : s.state = .established ∨ s.state = .closeWait)
    (hbound : s.state = .established → s.seqRemote < 2 ^ 33)
    (hfits : s.state = .established → SegmentFits w off seg s)
    (h : handleSegment env net seg = some net') :
    RecvOutcome id net net' s.recvPart ∨
    s.state = .established ∧ hasFlag seg.flags tcpFin = true ∧
      RecvOutcome id net net' (s.ring, s.seqRemote + 1, .closeWait) ∨
    s.state = .established ∧ hasFlag seg.flags tcpFin = false ∧ seg.payloadLen ≠ 0 ∧
      (s.seqRemote = 0 ∨ seg.seq = s.seqRemote) ∧
      RecvOutcome id net net' ((fifoWrite8 recvBufferSize s.ring seg.payloadLen seg.payload).ring,
        u64 (s.seqRemote + seg.payloadLen), .established) := by
  unfold handleSegment at h
  split at h
  · cases h
    exact .inl (RecvEffect.refl hs).outcome
  rename_i k hlookup
  obtain ⟨t, ht, hmatch⟩ := lookupSocket_matches hseg hlookup
  rw [ht] at h
  dsimp only at h
  by_cases hk : id = k
  swap
  · exact .inl (onSegment_listener hseg ht (honly k t (Ne.symm hk) ht hmatch) hk hs h)
  subst hk
  cases hs.symm.trans ht
  unfold onSegment at h
  rcases hstate with hest | hcw
  swap
  · -- segments for a socket in `CLOSE_WAIT` are ignored
    rw [hcw] at h
    cases h
    refine .inl (((RecvEffect.refl hs).modify (g := fun p => p) ?_).touch env).outcome
    intro s' hs'
    have hcw' : s'.state = .closeWait := by
      rw [← hcw]
      exact (eq_of_recvPart hs').2.2
    rw [onClosing, hcw']
    exact hs'
  · rw [hest] at h
    cases h
    have hack := (onFin_effect env hs seg).onAck seg
    obtain ⟨s1, hs1, hpart⟩ := hack.part
    have hpay := onPayload_outcome env hseg (honly.outcome hack.outcome) hs1
    cases hflag : hasFlag seg.flags tcpFin with
    | true =>
      rw [hflag, if_pos rfl] at hpart
      obtain ⟨hring, hseq, hst⟩ := eq_of_recvPart hpart
      have hlt := hbound hest
      rw [u64_of_lt (by omega)] at hseq
      rcases hpay with hsame | ⟨-, hpass, -⟩
      · rw [Sock.recvPart, hring, hseq, hst] at hsame
        exact .inr (.inl ⟨hest, rfl, .after hack hsame⟩)
      · -- the FIN is expected next, so the payload before it is an old one
        have hexp := (hfits hest).1 hflag
        have hle := seq_le hseg
        omega
    | false =>
      rw [hflag, if_neg Bool.false_ne_true] at hpart
      obtain ⟨hring, hseq, hst⟩ := eq_of_recvPart hpart
      rw [Sock.recvPart, hring, hseq, hst] at hpay
      rcases hpay with hsame | ⟨hlen, hpass, hdata⟩
      · exact .inl (.after hack hsame)
      · rw [hest] at hdata
        exact .inr (.inr ⟨hest, rfl, hlen, hpass, .after hack hdata⟩)

end Segment

/-! ## Runs -/

structure RecvInv (w : Stream) (id : ℕ) (initial : List UInt8) (st : RecvState) (s : Sock) :
    Prop where
  sock : st.net.sockets id = some s
  state : s.state = .established ∨ s.state = .closeWait
  valid : s.ring.Valid recvBufferSize
  lower : w.start ≤ s.seqRemote
  upper : s.state = .established → s.seqRemote ≤ w.start + w.length
  -- a segment is accepted below `2 ^ 32` only
  bound : s.state = .established → s.seqRemote < 2 ^ 33
  intact : st.taken ++ s.ring.contents recvBufferSize =
    initial ++ cells (min (s.seqRemote - w.start) w.length) w.bytes
  only : OnlyListeners w id st.net

section Runs

variable {w : Stream} {id off : ℕ} {initial : List UInt8} {st st' : RecvState} {s : Sock}

theorem recvBufferSize_lt : recvBufferSize < 2 ^ 64 := by decide

theorem payloadLen_lt (f : Frame) : (decodeSegment f).payloadLen < 2 ^ 16 :=
  Nat.mod_lt _ (by decide)

section

variable (h : RecvInv w id initial st s)
include h

/-- A segment that the code accepts as the next part of the stream. -/
theorem RecvInv.accept
    (hseg : seg.OfStream w off) (hlen : seg.payloadLen < 2 ^ 16)
    (hpass : s.seqRemote = 0 ∨ seg.seq = s.seqRemote) (hnext : s.seqRemote = w.start + off)
    (hroom : seg.payloadLen ≤ s.recvRoom)
    (hout : RecvOutcome id st.net net' ((fifoWrite8 recvBufferSize s.ring seg.payloadLen
      seg.payload).ring, u64 (s.seqRemote + seg.payloadLen), .established)) :
    ∃ s', RecvInv w id initial { st with net := net' } s' := by
  obtain ⟨s', hs', hpart⟩ := hout.part
  obtain ⟨hring, hseq, hstate⟩ := eq_of_recvPart hpart
  obtain ⟨hvalid, -, hcontents⟩ :=
    fifoWrite_spec recvBufferSize_lt h.valid seg.payloadLen seg.payload
  have hseqlt : seg.seq < 2 ^ 32 := by
    rw [hseg.seq]
    exact Nat.mod_lt _ (by decide)
  rw [u64_of_lt (by omega)] at hseq
  have hinside := hseg.inside
  refine ⟨s', hs', .inl hstate, hring ▸ hvalid, ?_, ?_, ?_, ?_, h.only.outcome hout⟩
  · omega
  · intro _
    omega
  · intro _
    omega
  · -- the queue takes the whole payload, which continues the stream
    have hbytes : cells seg.payloadLen seg.payload =
        cells seg.payloadLen fun k => w.bytes (off + k) := by
      refine map_congr_left ?_
      intro k hk
      exact hseg.bytes k (mem_range.mp hk)
    have hold : min (s.seqRemote - w.start) w.length = off := by omega
    have hnew : min (s'.seqRemote - w.start) w.length = off + seg.payloadLen := by omega
    rw [Sock.recvRoom] at hroom
    rw [hring, fifoWrite8, hcontents, min_eq_left hroom, ← append_assoc, h.intact, hold, hnew,
      hbytes, cells_add, append_assoc]

/-- A segment, where it is allowed, keeps the invariant. -/
theorem RecvInv.segment {env : Env} {f : Frame} (hseg : (decodeSegment f).OfStream w off)
    (hfits : s.state = .established → SegmentFits w off (decodeSegment f) s)
    (hstep : handleTcpV4 env st.net f = some net') :
    ∃ s', RecvInv w id initial { st with net := net' } s' := by
  rcases handleSegment_outcome hseg h.only h.sock h.state h.bound hfits hstep with
    hout | ⟨hest, hfin, hout⟩ | ⟨hest, hnofin, hlen, hpass, hout⟩
  · obtain ⟨s', hs', hpart⟩ := hout.part
    obtain ⟨hring, hseq, hstate⟩ := eq_of_recvPart hpart
    refine ⟨s', hs', hstate ▸ h.state, hring ▸ h.valid, hseq ▸ h.lower, ?_, ?_, ?_,
      h.only.outcome hout⟩
    · rw [hseq, hstate]
      exact h.upper
    · rw [hseq, hstate]
      exact h.bound
    · rw [hseq, hring]
      exact h.intact
  · obtain ⟨s', hs', hpart⟩ := hout.part
    obtain ⟨hring, hseq, hstate⟩ := eq_of_recvPart hpart
    have hexp := (hfits hest).1 hfin
    have hend := hseg.fin hfin
    refine ⟨s', hs', .inr hstate, hring ▸ h.valid, by omega, ?_, ?_, ?_, h.only.outcome hout⟩
    · intro hcontra
      cases hstate.symm.trans hcontra
    · intro hcontra
      cases hstate.symm.trans hcontra
    · -- the FIN has the number after the last byte
      have hall : min (s'.seqRemote - w.start) w.length =
          min (s.seqRemote - w.start) w.length := by omega
      rw [hall, hring]
      exact h.intact
  · obtain ⟨hnext, hroom⟩ := (hfits hest).2 hnofin hlen hpass
    exact h.accept hseg (payloadLen_lt f) hpass hnext hroom hout

theorem RecvInv.moved {bytes : List UInt8} (hvalid : q.Valid recvBufferSize)
    (hmoved : bytes ++ q.contents recvBufferSize = s.ring.contents recvBufferSize)
    (hsock : st'.net.sockets = (st.net.modifySock id fun s => s.setRing q).sockets)
    (htaken : st'.taken = st.taken ++ bytes) :
    RecvInv w id initial st' (s.setRing q) where
  sock := by rw [hsock]; exact modifySock_sockets_some h.sock _
  state := h.state
  valid := hvalid
  lower := h.lower
  upper := h.upper
  bound := h.bound
  intact := by
    rw [htaken, Sock.ring_setRing, append_assoc, hmoved]
    exact h.intact
  only := by
    intro k t hk ht hmatch
    rw [hsock, modifySock_sockets_of_ne _ _ _ hk] at ht
    exact h.only k t hk ht hmatch

theorem fifoRead8_moves (payload : ℕ → UInt8) (payloadLen : ℕ) :
    let r := fifoRead8 recvBufferSize s.ring payloadLen payload
    r.ring.Valid recvBufferSize ∧
      cells r.outSize r.out ++ r.ring.contents recvBufferSize =
        s.ring.contents recvBufferSize := by
  obtain ⟨hvalid, -, hcontents, hcells⟩ :=
    fifoRead_spec recvBufferSize_lt h.valid payloadLen payload
  refine ⟨hvalid, ?_⟩
  rw [fifoRead8, hcells, hcontents, take_append_drop]

/-- **One step**, where it is allowed, keeps the invariant. -/
theorem RecvInv.step {c : Env × RecvCall} (hw : c.2.OfStream w) (hok : c.2.Ok w id st)
    (hstep : RecvCall.step id st c = some st') :
    ∃ s', RecvInv w id initial st' s' := by
  obtain ⟨env, c⟩ := c
  cases c with
  | segment off f =>
    rw [RecvCall.step] at hstep
    obtain ⟨net', hnet, rfl⟩ := map_eq_some_iff.mp hstep
    exact h.segment hw (hok s h.sock) hnet
  | read tid payload payloadLen =>
    obtain ⟨hvalid, hmoved⟩ := fifoRead8_moves h payload payloadLen
    unfold RecvCall.step at hstep
    dsimp only at hstep
    split at hstep
    · obtain ⟨r, hr, rfl⟩ := map_eq_some_iff.mp hstep
      unfold readSocketEnter at hr
      rw [h.sock] at hr
      dsimp only at hr
      split at hr
      · cases hr
        exact ⟨_, h.moved hvalid hmoved rfl rfl⟩
      · -- nothing was queued, and the reader sleeps
        rename_i hzero
        cases hr
        rw [not_not.mp hzero] at hmoved
        exact ⟨_, h.moved hvalid hmoved rfl rfl⟩
    · cases hstep
  | resume tid =>
    unfold RecvCall.step at hstep
    dsimp only at hstep
    split at hstep
    · split at hstep
      · obtain ⟨r, hr, rfl⟩ := map_eq_some_iff.mp hstep
        unfold readSocketResume at hr
        rw [h.sock] at hr
        cases hr
        obtain ⟨hvalid, hmoved⟩ := fifoRead8_moves h _ _
        exact ⟨_, h.moved hvalid hmoved rfl rfl⟩
      · cases hstep
    · cases hstep

end

/-- **The received stream is intact.** In any interleaving of segments and reads in which every FIN
comes after the whole stream and every accepted payload is the next part of it and fits, the bytes
handed out and those in the queue are the initial contents and then the acknowledged bytes. -/
theorem streamIntact_of_run {calls : List (Env × RecvCall)} (hs : st.net.sockets id = some s)
    (hstate : s.state = .established) (hstart : s.seqRemote = w.start) (hlt : w.start < 2 ^ 32)
    (hvalid : s.ring.Valid recvBufferSize) (honly : OnlyListeners w id st.net)
    (htaken : st.taken = [])
    (hrun : Run (RecvCall.step id) (fun t c => c.2.OfStream w ∧ c.2.Ok w id t) st calls st') :
    StreamIntact w id (s.ring.contents recvBufferSize) st' := by
  have hinit : RecvInv w id (s.ring.contents recvBufferSize) st s :=
    { sock := hs, state := .inl hstate, valid := hvalid, lower := hstart.ge
      upper := fun _ => by omega
      bound := fun _ => by omega
      intact := by simp [htaken, hstart, cells]
      only := honly }
  have hinv : ∃ s', RecvInv w id (s.ring.contents recvBufferSize) st' s' := by
    refine hrun.invariant (fun t => ∃ s', RecvInv w id (s.ring.contents recvBufferSize) t s') ?_
      ⟨s, hinit⟩
    rintro t c t' ⟨s₁, h₁⟩ ⟨hw, hok⟩ hstep
    exact h₁.step hw hok hstep
  obtain ⟨s', h⟩ := hinv
  exact ⟨s', h.sock, h.intact⟩

end Runs

/-! ## Data with a FIN -/

/-- A frame with one byte of payload, the given sequence number below `2 ^ 16` and flags, for the
sample socket. -/
def sampleFrame (seq flags byte : UInt8) : Frame where
  buf := fun k =>
    match k with
    | 14 => 0x45 | 29 => 2 | 33 => 1 | 35 => 4 | 37 => 3
    | 41 => seq | 46 => 0x50 | 47 => flags | 54 => byte
    | _ => 0
  bufLen := 55

/-- The sample connection, expecting the number 100. -/
def sampleRecv : RecvState :=
  ⟨.ofSock { sampleSock .established with seqRemote := 100 }, []⟩

def sampleStream : Stream where
  srcIp := 2
  dstIp := 1
  srcPort := 4
  dstPort := 3
  start := 100
  bytes := fun _ => 7
  length := 1

theorem sampleFrame_payloadLen (flags : UInt8) :
    (decodeSegment (sampleFrame 100 flags 7)).payloadLen = 1 := by
  simp [decodeSegment, sampleFrame, u16]

theorem sampleFrame_ofStream (flags : UInt8) (hsyn : hasFlag flags.toNat tcpSyn = false) :
    (decodeSegment (sampleFrame 100 flags 7)).OfStream sampleStream 0 where
  srcIp := rfl
  dstIp := rfl
  srcPort := rfl
  dstPort := rfl
  seq := rfl
  noSyn := hsyn
  bytes := by
    intro k hk
    rw [sampleFrame_payloadLen] at hk
    obtain rfl := Nat.lt_one_iff.mp hk
    simp [decodeSegment, sampleFrame, sampleStream]
  inside := by rw [sampleFrame_payloadLen]; rfl
  fin := fun _ => by rw [sampleFrame_payloadLen]; rfl

theorem sampleRecv_onlyListeners : OnlyListeners sampleStream 0 sampleRecv.net := by
  intro k t hk ht _
  simp [sampleRecv, Net.ofSock, hk] at ht

theorem sampleFrame_step (flags : UInt8) :
    RecvCall.step 0 sampleRecv (resolvedEnv, .segment 0 (sampleFrame 100 flags 7)) =
      some { sampleRecv with
        net := onPayload resolvedEnv (onAck (onFin resolvedEnv sampleRecv.net
          (decodeSegment (sampleFrame 100 flags 7)) 0) (decodeSegment (sampleFrame 100 flags 7)) 0)
          (decodeSegment (sampleFrame 100 flags 7)) 0 } := by
  have hlookup : lookupSocket resolvedEnv sampleRecv.net
      (decodeSegment (sampleFrame 100 flags 7)) = some 0 := by
    refine lookupSocket_of_exact ?_
    exact find_range_zero (by decide) rfl
  rw [RecvCall.step, handleTcpV4, handleSegment_of_established hlookup rfl rfl]
  rfl

/-- The byte alone in a run: it is the next part of the stream and is kept. -/
theorem streamIntact_of_run_byte :
    ∃ st', RecvCall.step 0 sampleRecv (resolvedEnv, .segment 0 (sampleFrame 100 0x10 7)) =
        some st' ∧ StreamIntact sampleStream 0 [] st' := by
  have hfits : (RecvCall.segment 0 (sampleFrame 100 0x10 7)).Ok sampleStream 0 sampleRecv := by
    intro s hs _
    cases hs
    refine ⟨?_, ?_⟩
    · intro hfin
      cases hfin
    · intro _ _ _
      refine ⟨rfl, ?_⟩
      decide
  have hw : (RecvCall.segment 0 (sampleFrame 100 0x10 7)).OfStream sampleStream :=
    sampleFrame_ofStream 0x10 rfl
  have hrun : Run (RecvCall.step 0)
      (fun t c => c.2.OfStream sampleStream ∧ c.2.Ok sampleStream 0 t) sampleRecv
      ([] ++ [(resolvedEnv, .segment 0 (sampleFrame 100 0x10 7))]) _ :=
    .snoc (.nil _) ⟨hw, hfits⟩ (sampleFrame_step 0x10)
  exact ⟨_, sampleFrame_step 0x10, streamIntact_of_run
    (s := { sampleSock .established with seqRemote := 100 }) rfl rfl rfl (by decide) (by decide)
    sampleRecv_onlyListeners rfl hrun⟩

/-- **A FIN acknowledges a byte that is not stored**: it advances the expected number first, and the
byte that comes with it is taken for an old one. -/
theorem fin_loses_byte :
    ∃ st', (RecvCall.segment 0 (sampleFrame 100 0x11 7)).OfStream sampleStream ∧
      RecvCall.step 0 sampleRecv (resolvedEnv, .segment 0 (sampleFrame 100 0x11 7)) = some st' ∧
      (st'.net.sockets 0).map (fun s => (s.seqRemote, s.ring.contents recvBufferSize)) =
        some (101, []) ∧
      ¬ StreamIntact sampleStream 0 [] st' := by
  have hsock : ((onPayload resolvedEnv (onAck (onFin resolvedEnv sampleRecv.net
      (decodeSegment (sampleFrame 100 0x11 7)) 0) (decodeSegment (sampleFrame 100 0x11 7)) 0)
      (decodeSegment (sampleFrame 100 0x11 7)) 0).sockets 0).map
        (fun s => (s.seqRemote, s.ring.contents recvBufferSize)) = some (101, []) := by
    rfl
  refine ⟨_, sampleFrame_ofStream 0x11 rfl, sampleFrame_step 0x11, hsock, ?_⟩
  rintro ⟨s, hs, hintact⟩
  rw [hs] at hsock
  obtain ⟨hseq, hcontents⟩ := Prod.mk.inj (some.inj hsock)
  rw [hseq, hcontents] at hintact
  cases hintact

end CarrotOS
