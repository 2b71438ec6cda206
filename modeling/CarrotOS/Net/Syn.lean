import CarrotOS.Lib.Run
import CarrotOS.Lib.Table
import CarrotOS.Net.Syscall
import CarrotOS.Net.View

/-!
# Sequence numbers of SYN segments

A SYN occupies one sequence number however often it is sent. The code advances the number at each
transmission instead, so the law holds only in runs that transmit a SYN for a socket once.
-/

namespace CarrotOS

open Word Transition Function List

variable {extra : List Sent} {id : ℕ} {p : Packet} {v' : View}

/-- The sequence numbers of the SYN and SYN-ACK segments sent for a socket, in order. -/
def synSeqs (net : Net) (id : ℕ) : List ℕ :=
  (net.sent.filter fun e => e.sockId == id && hasFlag e.packet.hdr.flags tcpSyn).map
    fun e => e.packet.hdr.seq

def SynsAgree (net : Net) : Prop :=
  ∀ id, ∀ a ∈ synSeqs net id, ∀ b ∈ synSeqs net id, a = b

/-- A socket that becomes established in the step has the sequence number after its SYN. -/
def EstablishedNext (net net' : Net) : Prop :=
  ∀ id v v', net.view id = some v → net'.view id = some v' → v.state ≠ .established →
    v'.state = .established → ∀ a ∈ synSeqs net' id, u32 v'.seqLocal = u32 (a + 1)

inductive SynCall where
  | sendSyn (id : ℕ)
  | retry (id : ℕ)
  | segment (f : Frame)

def SynCall.step (net : Net) : Env × SynCall → Option Net
  | (env, .sendSyn id) => some (tcpSendSyn env net id).1
  | (env, .retry id) => some (retrySocket env net id)
  | (env, .segment f) => handleTcpV4 env net f

def synSource (env : Env) (s : Sock) : ℕ :=
  if s.localIpL = 0 then env.nicIp else s.localIpL

/-- If a SYN was sent for the socket before, `tcp_send_syn` transmits none and keeps the number. -/
def SynNotRepeated (env : Env) (net : Net) (id : ℕ) (s : Sock) : Prop :=
  synSeqs net id ≠ [] →
    s.seqLocal ≠ 0 ∧ env.resolved (u32 (synSource env s)) (u32 s.remoteIpL) = false

/-- The condition on a call: no second SYN is transmitted for a socket. -/
def SynCall.Ok (net : Net) : Env × SynCall → Prop
  | (env, .sendSyn id) => ∀ s, net.sockets id = some s → SynNotRepeated env net id s
  | (env, .retry id) => ∀ s, net.sockets id = some s → s.state = .synSent →
      SynNotRepeated env net id s
  | (env, .segment f) => ∀ id s, AnswersFromListener env net (decodeSegment f) id s →
      synSeqs net id ≠ [] → env.resolved (u32 s.localIpL) (u32 s.remoteIpL) = false

/-! ## The log of SYNs -/

section Log

variable {net net' : Net}

theorem synSeqs_append (h : net'.sent = net.sent ++ extra) (id : ℕ) :
    synSeqs net' id = synSeqs net id ++
      (extra.filter fun e => e.sockId == id && hasFlag e.packet.hdr.flags tcpSyn).map
        fun e => e.packet.hdr.seq := by
  rw [synSeqs, h, filter_append, map_append, ← synSeqs]

theorem synSeqs_of_emits (h : Emits (fun e => hasFlag e.packet.hdr.flags tcpSyn = false) net net')
    (id : ℕ) : synSeqs net' id = synSeqs net id := by
  obtain ⟨extra, hsent, hflags⟩ := h
  have hnone : (extra.filter fun e =>
      e.sockId == id && hasFlag e.packet.hdr.flags tcpSyn) = [] := by
    rw [filter_eq_nil_iff]
    intro e he
    simp [hflags e he]
  rw [synSeqs_append hsent, hnone, map_nil, append_nil]

theorem Sent.IsAck.no_syn {e : Sent} (h : e.IsAck) : hasFlag e.packet.hdr.flags tcpSyn = false := by
  rw [show e.packet.hdr.flags = tcpAck from h]
  rfl

theorem synSeqs_of_acks (h : Emits Sent.IsAck net net') (id : ℕ) :
    synSeqs net' id = synSeqs net id := by
  obtain ⟨extra, hsent, hack⟩ := h
  exact synSeqs_of_emits ⟨extra, hsent, fun e he => (hack e he).no_syn⟩ id

theorem synSeqs_snoc_self (h : net'.sent = net.sent ++ [⟨id, p⟩])
    (hsyn : hasFlag p.hdr.flags tcpSyn = true) :
    synSeqs net' id = synSeqs net id ++ [p.hdr.seq] := by
  simp [synSeqs_append h, hsyn]

theorem synSeqs_snoc_of_ne {k : ℕ} (h : net'.sent = net.sent ++ [⟨id, p⟩]) (hk : k ≠ id) :
    synSeqs net' k = synSeqs net k := by
  simp [synSeqs_append h, hk.symm]

end Log

/-! ## The step of one socket -/

/-- What an allowed step does to the view of one socket and to the numbers of its SYNs. -/
inductive SynChange : Option View → List ℕ → Option View → List ℕ → Prop
  | same (o seqs) : SynChange o seqs o seqs
  | move {v v'} (h : SegmentMove v v') (seqs) : SynChange (some v) seqs (some v') seqs
  -- the socket ends up outside the handshake
  | leave (v) {v'} (seqs) (h : v'.state = .listen ∨ v'.state = .closeWait) :
    SynChange (some v) seqs (some v') seqs
  -- nothing was or is transmitted
  | silent (o v') : SynChange o [] (some v') []
  -- the first SYN
  | syn (o) {v'} (q : ℕ) (h : v'.seqLocal = u64 (q + 1)) : SynChange o [] (some v') [u32 q]

/-- The invariant of one socket. -/
structure SynOk (o : Option View) (seqs : List ℕ) : Prop where
  agree : ∀ a ∈ seqs, ∀ b ∈ seqs, a = b
  next : ∀ v, o = some v → v.state = .synSent ∨ v.state = .synReceived →
    ∀ a ∈ seqs, u32 v.seqLocal = u32 (a + 1)
  free : o = none → seqs = []

theorem u32_u64_succ (q : ℕ) : u32 (u64 (q + 1)) = u32 (u32 q + 1) := by
  simp only [u32, u64]
  omega

section Change

variable {o o' : Option View} {seqs seqs' : List ℕ}

theorem SynChange.keeps (h : SynChange o seqs o' seqs') (hok : SynOk o seqs) : SynOk o' seqs' := by
  cases h with
  | same => exact hok
  | move hmove =>
    refine ⟨hok.agree, ?_, fun h => by cases h⟩
    -- no transition leads into the handshake
    intro w hw hstate
    cases hw
    cases hmove <;> rcases hstate with h | h <;> cases h
  | leave v seqs hleft =>
    refine ⟨hok.agree, ?_, fun h => by cases h⟩
    intro w hw hstate
    cases hw
    rcases hleft with hl | hl <;> rw [hl] at hstate <;> rcases hstate with h | h <;> cases h
  | silent => exact ⟨by simp, by simp, fun h => by cases h⟩
  | syn _ q hq =>
    refine ⟨by simp, ?_, fun h => by cases h⟩
    intro w hw _ a ha
    cases hw
    rw [mem_singleton.mp ha, hq, u32_u64_succ]

theorem SynChange.established {v : View} (h : SynChange o seqs o' seqs') (hok : SynOk o seqs)
    (hv : o = some v) (hv' : o' = some v') (hstate : v.state ≠ .established)
    (hstate' : v'.state = .established) : ∀ a ∈ seqs', u32 v'.seqLocal = u32 (a + 1) := by
  cases h with
  | same =>
    cases hv.symm.trans hv'
    exact absurd hstate' hstate
  | move hmove =>
    cases hv
    cases hv'
    -- only the two ends of the handshake lead to `ESTABLISHED`, with the number unchanged
    cases hmove with
    | connect p q => exact hok.next ⟨p, .synSent, q⟩ rfl (.inl rfl)
    | complete p q => exact hok.next ⟨p, .synReceived, q⟩ rfl (.inr rfl)
    | acknowledge => exact absurd rfl hstate
    | remoteFin | finAcked | finCrossed | closed | lastAcked | closingAcked => cases hstate'
  | leave w seqs hleft =>
    cases hv'
    rcases hleft with hl | hl <;> rw [hl] at hstate' <;> cases hstate'
  | silent => simp
  | syn _ q hq =>
    cases hv'
    intro a ha
    rw [mem_singleton.mp ha, hq, u32_u64_succ]

end Change

/-! ## `tcp_send_syn` -/

section SendSyn

variable {env : Env} {net : Net} {id : ℕ} {s : Sock}

def synIsn (net : Net) (s : Sock) : ℕ :=
  if s.seqLocal = 0 then u32 (net.nextIsn + 1) else s.seqLocal

theorem chooseIsn_spec (hs : net.sockets id = some s) :
    (chooseIsn net id).sockets =
        update net.sockets id (some { s with seqLocal := synIsn net s }) ∧
      (chooseIsn net id).sent = net.sent := by
  unfold chooseIsn synIsn
  rw [hs]
  dsimp only
  split
  · refine ⟨?_, rfl⟩
    rw [Net.modifySock]
    rw [hs]
    rfl
  · refine ⟨?_, rfl⟩
    rw [show ({ s with seqLocal := s.seqLocal } : Sock) = s from rfl, ← hs,
      update_eq_self]

theorem allocatePortLoop_spec (net : Net) (protocol : Protocol) (rest : ℕ) :
    (allocatePortLoop net protocol rest).1.sockets = net.sockets ∧
      (allocatePortLoop net protocol rest).1.sent = net.sent := by
  induction rest generalizing net with
  | zero => exact ⟨rfl, rfl⟩
  | succ rest ih =>
    rw [allocatePortLoop]
    split
    · exact ih (advancePort net)
    · exact ⟨rfl, rfl⟩

theorem chooseLocalIp_spec (env : Env) (hs : net.sockets id = some s) :
    (chooseLocalIp env net id).sockets =
      update net.sockets id (some { s with localIpL := synSource env s }) :=
  modifySock_sockets hs _

theorem chooseLocalPort_spec (hs : net.sockets id = some s) :
    (∃ port, (chooseLocalPort net id).sockets =
        update net.sockets id (some { s with localPort := port })) ∧
      (chooseLocalPort net id).sent = net.sent := by
  unfold chooseLocalPort
  rw [hs]
  dsimp only
  split
  · rcases hport : allocateRandomHighPort net .udp with ⟨net1, port⟩
    obtain ⟨hsock, hsent⟩ := allocatePortLoop_spec net .udp (65535 - 49152)
    rw [← allocateRandomHighPort, hport] at hsock hsent
    rw [← hsock] at hs ⊢
    exact ⟨⟨port, modifySock_sockets hs _⟩, hsent⟩
  · refine ⟨⟨s.localPort, ?_⟩, rfl⟩
    rw [show ({ s with localPort := s.localPort } : Sock) = s from rfl, ← hs,
      update_eq_self]

/-- **`tcp_send_syn`** for a socket with an address: the SYN carries the number of the socket, or a
new one, which advances if it is transmitted. -/
theorem tcpSendSyn_spec (env : Env) (hs : net.sockets id = some s) (hversion : s.version ≠ 0) :
    if env.resolved (u32 (synSource env s)) (u32 s.remoteIpL) = true then
      (tcpSendSyn env net id).1.view = update net.view id
        (some ⟨s.protocol, .synSent, u64 (synIsn net s + 1)⟩) ∧
      ∃ p : Packet, p.hdr.flags = tcpSyn ∧ p.hdr.seq = u32 (synIsn net s) ∧
        (tcpSendSyn env net id).1.sent = net.sent ++ [⟨id, p⟩]
    else
      (tcpSendSyn env net id).1.view = update net.view id
        (some { s.view with seqLocal := synIsn net s }) ∧
      (tcpSendSyn env net id).1.sent = net.sent := by
  obtain ⟨hsock1, hsent1⟩ := chooseIsn_spec hs
  have hs1 : (chooseIsn net id).sockets id = some { s with seqLocal := synIsn net s } := by
    rw [hsock1, update_self]
  have hsock2 := chooseLocalIp_spec env hs1
  have hs2 := congrFun hsock2 id
  rw [update_self] at hs2
  obtain ⟨⟨port, hsock3⟩, hsent3⟩ := chooseLocalPort_spec hs2
  have hs3 := congrFun hsock3 id
  rw [update_self] at hs3
  have hview3 : (chooseLocalPort (chooseLocalIp env (chooseIsn net id) id) id).view =
      update net.view id (some { s.view with seqLocal := synIsn net s }) := by
    funext k
    by_cases hk : k = id
    · subst hk
      rw [view_of_sockets hs3, update_self]
      rfl
    · simp only [Net.view, Net.proj, hsock3, hsock2, hsock1, update_of_ne hk]
  have hsent : (chooseLocalPort (chooseLocalIp env (chooseIsn net id) id) id).sent = net.sent :=
    hsent3.trans hsent1
  unfold tcpSendSyn
  rw [hs]
  dsimp only
  rw [if_neg hversion, hs3]
  dsimp only
  split
  · rename_i hresolved
    rw [nicSendIpv4_of_resolved (by exact hresolved)]
    refine ⟨?_, _, rfl, rfl, congrArg (· ++ _) hsent⟩
    exact view_modifySock_of_update hview3
      (g := fun v => ⟨v.protocol, .synSent, u64 (v.seqLocal + 1)⟩) fun _ => rfl
  · rename_i hresolved
    rw [nicSendIpv4_of_not_resolved (by exact hresolved)]
    exact ⟨hview3, hsent⟩

end SendSyn

/-! ## Runs -/

section Runs

variable {env : Env} {net net' : Net}

/-- The invariant of all sockets. -/
def SynInv (net : Net) : Prop :=
  ∀ id, SynOk (net.view id) (synSeqs net id)

def SynStep (net net' : Net) : Prop :=
  ∀ id, SynChange (net.view id) (synSeqs net id) (net'.view id) (synSeqs net' id)

theorem SynStep.of_update {o : Option View} (hview : net'.view = update net.view id o)
    (hseqs : ∀ k, k ≠ id → synSeqs net' k = synSeqs net k)
    (hchange : SynChange (net.view id) (synSeqs net id) o (synSeqs net' id)) :
    SynStep net net' := by
  intro k
  rw [hview]
  by_cases hk : k = id
  · subst hk
    rw [update_self]
    exact hchange
  · rw [update_of_ne hk, hseqs k hk]
    exact .same _ _

theorem SynStep.of_same
    (hemits : Emits (fun e => hasFlag e.packet.hdr.flags tcpSyn = false) net net')
    (hview : net'.view = net.view) : SynStep net net' := by
  intro k
  rw [hview, synSeqs_of_emits hemits]
  exact .same _ _

theorem SynStep.of_first {q : ℕ}
    (hnone : synSeqs net id = []) (hview : net'.view = update net.view id (some v'))
    (hsent : net'.sent = net.sent ++ extra)
    (hextra : extra = [] ∨ ∃ p : Packet, extra = [⟨id, p⟩] ∧
      hasFlag p.hdr.flags tcpSyn = true ∧ p.hdr.seq = u32 q)
    (hq : v'.seqLocal = u64 (q + 1)) : SynStep net net' := by
  rcases hextra with rfl | ⟨p, rfl, hsyn, hseq⟩
  · have hsame : ∀ k, synSeqs net' k = synSeqs net k := fun k => by
      rw [synSeqs_append hsent]
      simp
    refine .of_update hview (fun k _ => hsame k) ?_
    rw [hsame, hnone]
    exact .silent _ _
  · refine .of_update hview (fun k hk => synSeqs_snoc_of_ne hsent hk) ?_
    rw [synSeqs_snoc_self hsent hsyn, hnone, hseq]
    exact .syn _ q hq

theorem synackSent_cases (env : Env) (id : ℕ) (s : Sock) (seq : ℕ) :
    synackSent env id s seq = [] ∨ ∃ p : Packet, synackSent env id s seq = [⟨id, p⟩] ∧
      hasFlag p.hdr.flags tcpSyn = true ∧ p.hdr.seq = u32 s.seqLocal := by
  unfold synackSent
  split
  · refine .inr ⟨_, rfl, ?_, rfl⟩
    change hasFlag (tcpSyn ||| tcpAck) tcpSyn = true
    decide
  · exact .inl rfl

theorem synStep_segment {f : Frame} (hinv : SynInv net) (hok : SynCall.Ok net (env, .segment f))
    (heffect : SegmentEffect env (decodeSegment f) net net') : SynStep net net' := by
  cases heffect with
  | moves hmoves =>
    cases hmoves with
    | quiet hquiet =>
      intro k
      rw [hquiet.1, synSeqs_of_acks hquiet.2]
      exact .same _ _
    | move id v v' hv hmove hview hsent =>
      refine .of_update hview (fun k _ => synSeqs_of_acks hsent k) ?_
      rw [synSeqs_of_acks hsent, hv]
      exact .move hmove _
  | listener id s hs hview hsent =>
    by_cases hnone : synSeqs net id = []
    · exact .of_first hnone hview hsent (synackSent_cases env id s _) rfl
    · -- the listener has sent a SYN-ACK before, so this one is not transmitted
      have hsame : net'.sent = net.sent := by
        rw [hsent, synackSent, if_neg, append_nil]
        rw [hok id s hs hnone]
        exact Bool.false_ne_true
      have hseqs : ∀ k, synSeqs net' k = synSeqs net k := fun k => by rw [synSeqs, hsame, synSeqs]
      refine .of_update hview (fun k _ => hseqs k) ?_
      rw [hseqs, view_of_sockets hs.1]
      exact .leave _ _ (.inl hs.2.1)
  | child id s hfree htcp hview hsent =>
    have hnone : synSeqs net id = [] := (hinv id).free (by rw [Net.view, Net.proj, hfree]; rfl)
    exact .of_first hnone hview hsent (synackSent_cases env id s _) rfl

theorem synStep_sendSyn (hok : SynCall.Ok net (env, .sendSyn id)) :
    SynStep net (tcpSendSyn env net id).1 := by
  rcases hs : net.sockets id with - | s
  · have hsame : (tcpSendSyn env net id).1 = net := by rw [tcpSendSyn, hs]
    rw [hsame]
    exact .of_same (.of_eq rfl) rfl
  by_cases hversion : s.version = 0
  · have hsame : (tcpSendSyn env net id).1 = net := by
      rw [tcpSendSyn, hs]
      exact congrArg Prod.fst (if_pos hversion)
    rw [hsame]
    exact .of_same (.of_eq rfl) rfl
  have hspec := tcpSendSyn_spec env hs hversion
  split at hspec
  · rename_i hresolved
    obtain ⟨hview, p, hflags, hseq, hsent⟩ := hspec
    have hnone : synSeqs net id = [] := by
      by_contra hne
      rw [(hok s hs hne).2] at hresolved
      cases hresolved
    refine .of_first hnone hview hsent (.inr ⟨p, rfl, ?_, hseq⟩) rfl
    rw [hflags]
    rfl
  · obtain ⟨hview, hsent⟩ := hspec
    have hseqs : ∀ k, synSeqs (tcpSendSyn env net id).1 k = synSeqs net k := fun k => by
      rw [synSeqs, hsent, synSeqs]
    refine .of_update hview (fun k _ => hseqs k) ?_
    rw [hseqs, view_of_sockets hs]
    by_cases hnone : synSeqs net id = []
    · rw [hnone]
      exact .silent _ _
    · -- the number was chosen already
      rw [synIsn, if_neg (hok s hs hnone).1]
      exact .same _ _

theorem SynStep.congr {net1 net1' : Net} (h : SynStep net1 net1') (hview : net.view = net1.view)
    (hsent : net.sent = net1.sent) (hview' : net'.view = net1'.view)
    (hsent' : net'.sent = net1'.sent) : SynStep net net' := by
  intro k
  rw [hview, hview', synSeqs, hsent, ← synSeqs, synSeqs.eq_1 net', hsent', ← synSeqs]
  exact h k

theorem countRetry_view (net : Net) (id : ℕ) : (countRetry net id).view = net.view :=
  view_modifySock_of_eq net id fun _ => rfl

theorem synStep_tcpSendEstablished (id : ℕ) : SynStep net (tcpSendEstablished env net id) := by
  unfold tcpSendEstablished
  split
  · exact .of_same (.of_eq rfl) rfl
  · rename_i s hs
    refine .of_same ?_ ?_
    · refine emits_nicSendIpv4 env (touch env net id) id _ ?_
      change hasFlag (if s.sendPayloadLen = 0 then 0x10 else 0x18) tcpSyn = false
      split <;> decide
    · exact (view_congr (nicSendIpv4_sockets ..)).trans (quiet_touch env net id).1

theorem synStep_markSocketAsDeleted (net : Net) (id : ℕ) :
    SynStep net (markSocketAsDeleted net id) := by
  have hview := view_modifySock net id (f := fun s => { s with state := .closeWait })
    (g := fun v => { v with state := .closeWait }) fun _ => rfl
  refine .of_update hview (fun k _ => rfl) ?_
  rcases net.view id with - | v
  · exact .same _ _
  · exact .leave v _ (.inr rfl)

theorem synStep_retry (hok : SynCall.Ok net (env, .retry id)) :
    SynStep net (retrySocket env net id) := by
  unfold retrySocket
  split
  · exact .of_same (.of_eq rfl) rfl
  rename_i s hs
  split
  · exact .of_same (.of_eq rfl) rfl
  split
  · rename_i hstate
    split
    · exact synStep_markSocketAsDeleted net id
    · have hcount : SynStep (countRetry net id) (tcpSendSyn env (countRetry net id) id).1 := by
        refine synStep_sendSyn ?_
        -- counting the retry leaves what the condition speaks about
        intro s' hs'
        rw [countRetry, modifySock_sockets_self, hs] at hs'
        cases hs'
        exact hok s hs hstate
      exact hcount.congr (countRetry_view net id).symm rfl rfl rfl
  · split
    · exact .of_same (.of_eq rfl) rfl
    · split
      · exact synStep_markSocketAsDeleted net id
      · exact (synStep_tcpSendEstablished id).congr rfl rfl (countRetry_view _ id) rfl
  · split
    · refine (synStep_markSocketAsDeleted net id).congr rfl rfl ?_ rfl
      -- the state `CLOSED` is overwritten at once
      have hview := view_modifySock (countRetry net id) id
        (f := fun s => { s with state := .closed }) (g := fun v => { v with state := .closed })
        fun _ => rfl
      rw [countRetry_view, view_of_sockets hs] at hview
      rw [markSocketAsDeleted, markSocketAsDeleted,
        view_modifySock_of_update hview (g := fun v => { v with state := .closeWait }) fun _ => rfl,
        view_modifySock net id (g := fun v => { v with state := .closeWait }) fun _ => rfl,
        view_of_sockets hs]
      rfl
    · exact .of_same (.of_eq rfl) (countRetry_view net id)
  · exact .of_same (.of_eq rfl) rfl

/-- **One call**, where it is allowed, changes each socket in one of the ways of `SynChange`. -/
theorem synStep_of_ok {c : Env × SynCall} (hinv : SynInv net) (hok : SynCall.Ok net c)
    (hstep : SynCall.step net c = some net') : SynStep net net' := by
  obtain ⟨env, c⟩ := c
  cases c with
  | sendSyn id =>
    cases hstep
    exact synStep_sendSyn hok
  | retry id =>
    cases hstep
    exact synStep_retry hok
  | segment f =>
    exact synStep_segment hinv hok (handleSegment_effect hstep)

theorem synInv_of_sent_nil (h : net.sent = []) : SynInv net := by
  intro id
  have hnone : synSeqs net id = [] := by rw [synSeqs, h]; rfl
  rw [hnone]
  exact ⟨by simp, by simp, fun _ => rfl⟩

/-- **A SYN consumes one sequence number.** In every run in which no second SYN is transmitted for a
socket, its SYN and SYN-ACK segments carry one number, and a socket that becomes established has the
number after it. -/
theorem synSeqs_of_run {calls : List (Env × SynCall)} (h : net.sent = [])
    (hrun : Run SynCall.step SynCall.Ok net calls net') :
    SynsAgree net' ∧
      ∀ c net'', SynCall.Ok net' c → SynCall.step net' c = some net'' →
        EstablishedNext net' net'' := by
  have hinv : SynInv net' := by
    refine hrun.invariant SynInv ?_ (synInv_of_sent_nil h)
    intro t c t' hinv hok hstep id
    exact (synStep_of_ok hinv hok hstep id).keeps (hinv id)
  refine ⟨fun id => (hinv id).agree, ?_⟩
  intro c net'' hok hstep id v v' hv hv' hstate hstate'
  exact (synStep_of_ok hinv hok hstep id).established (hinv id) hv hv' hstate hstate'

end Runs

/-- A retry that finds no hardware address keeps the number, and the answer to the SYN establishes
the connection. -/
theorem synSeqs_of_run_answered :
    ∃ net' net'', Run SynCall.step SynCall.Ok (.ofSock (sampleSock .closed))
        [(resolvedEnv, .sendSyn 0), ({ resolvedEnv with resolved := fun _ _ => false }, .retry 0)]
        net' ∧
      SynCall.step net' (resolvedEnv, .segment (handshakeFrame 0x12)) = some net'' ∧
      synSeqs net'' 0 = [1000] ∧ net'.view 0 = some ⟨.tcp, .synSent, 1001⟩ ∧
      net''.view 0 = some ⟨.tcp, .established, 1001⟩ ∧
      SynsAgree net' ∧ EstablishedNext net' net'' := by
  have hsend : SynCall.Ok (.ofSock (sampleSock .closed)) (resolvedEnv, .sendSyn 0) :=
    fun _ _ h => absurd rfl h
  obtain ⟨net₁, hnet₁, ⟨s, hs, hseq⟩, net', hnet', hfind, ⟨t, ht, hstate⟩, net'', hnet'', hvalues⟩ :
      ∃ net₁ ∈ SynCall.step (.ofSock (sampleSock .closed)) (resolvedEnv, .sendSyn 0),
        (Table.Holds net₁.sockets 0 fun s => s.seqLocal ≠ 0) ∧
      ∃ net' ∈ SynCall.step net₁ ({ resolvedEnv with resolved := fun _ _ => false }, .retry 0),
        findSocketNotListen net' ((decodeSegment (handshakeFrame 0x12)).tupleTcp
          resolvedEnv).toNetTuple = some 0 ∧
        (Table.Holds net'.sockets 0 fun s => s.state ≠ .listen) ∧
      ∃ net'' ∈ SynCall.step net' (resolvedEnv, .segment (handshakeFrame 0x12)),
        synSeqs net'' 0 = [1000] ∧ net'.view 0 = some ⟨.tcp, .synSent, 1001⟩ ∧
        net''.view 0 = some ⟨.tcp, .established, 1001⟩ := by
    decide +kernel
  have hretry : SynCall.Ok net₁ ({ resolvedEnv with resolved := fun _ _ => false }, .retry 0) := by
    intro s' hs' _ _
    cases hs.symm.trans hs'
    exact ⟨hseq, rfl⟩
  have hanswer : SynCall.Ok net' (resolvedEnv, .segment (handshakeFrame 0x12)) := by
    rintro id s' ⟨hs', hlisten, -, hfound⟩
    cases hfind.symm.trans hfound
    cases ht.symm.trans hs'
    exact absurd hlisten hstate
  have hrun := Run.snoc (.snoc (.nil _) hsend hnet₁) hretry hnet'
  obtain ⟨hagree, hnext⟩ := synSeqs_of_run rfl hrun
  exact ⟨net', net'', hrun, hnet'', hvalues.1, hvalues.2.1, hvalues.2.2, hagree,
    hnext _ _ hanswer hnet''⟩

/-- **A retransmitted SYN carries another number**, the one advanced by the first transmission. -/
theorem retry_advances_syn :
    ∃ net', Run SynCall.step (fun _ _ => True) (.ofSock (sampleSock .closed))
        [(resolvedEnv, .sendSyn 0), (resolvedEnv, .retry 0)] net' ∧
      synSeqs net' 0 = [1000, 1001] ∧ ¬ SynsAgree net' := by
  refine ⟨_, .snoc (.snoc (.nil _) trivial rfl) trivial rfl, rfl, ?_⟩
  intro h
  have hseq := h 0 1000 (.head _) 1001 (.tail _ (.head _))
  cases hseq

end CarrotOS
