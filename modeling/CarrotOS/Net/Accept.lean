import CarrotOS.Net.Backlog
import CarrotOS.Net.Syscall

/-!
# Delivery of completed connections

A completed handshake should put the number of the child socket into the queue of the listening
socket it arrived for, and `sys_accept` on that socket should hand the children out in this order.
A child remembers its listener as an index of the listen table, which `push_backlog` uses as an
index of the socket table; the queue may be full; and `sys_accept` overwrites half a pointer of the
socket table. So the law holds in runs in which none of these matters.
-/

namespace CarrotOS

open RingQueue Bytes Transition Function List Option

variable {net net1 : Net} {p : QueuePart} {id idx pid r sockfd tid : ℕ} {s : Sock} {backlog : ℤ}

/-! ## Runs and their history -/

/-- The tables, and for each child the listening socket it arrived for, and for each listening
socket the children whose handshake was completed and those that `sys_accept` has returned. -/
structure AcceptState where
  net : Net
  arrived : ℕ → ℕ
  completed : ℕ → List ℕ
  accepted : ℕ → List ℕ

inductive AcceptCall where
  | listen (pid sockfd : ℕ) (backlog : ℤ)
  | segment (f : Frame)
  | accept (tid sockfd : ℕ)
  | resume (tid : ℕ)

/-- The history after a segment that led to `net'`: a new socket arrived for the socket that got the
segment, and has completed its handshake if it went from `SYN_RECEIVED` to `ESTABLISHED`. -/
def AcceptState.note (st : AcceptState) (env : Env) (seg : Segment) (net' : Net) : AcceptState :=
  match lookupSocket env st.net seg with
  | none => { st with net := net' }
  | some id =>
    { net := net'
      arrived := fun k =>
        if (st.net.sockets k).isNone && (net'.sockets k).isSome then id else st.arrived k
      completed :=
        if st.net.stateOf id = some .synReceived ∧ net'.stateOf id = some .established then
          update st.completed (st.arrived id) (st.completed (st.arrived id) ++ [id])
        else st.completed
      accepted := st.accepted }

/-- The history after a part of `sys_accept` on the listening socket `l`. -/
def AcceptState.deliver (st : AcceptState) (l : ℕ) (net' : Net) : Option ℕ → AcceptState
  | none => { st with net := net' }
  | some child =>
    { st with net := net', accepted := update st.accepted l (st.accepted l ++ [child]) }

def AcceptCall.step (st : AcceptState) : Env × AcceptCall → Option AcceptState
  | (env, .listen pid sockfd backlog) =>
    (sysListen env st.net pid sockfd backlog).map fun r => { st with net := r.1 }
  | (env, .segment f) => (handleTcpV4 env st.net f).map (st.note env (decodeSegment f))
  | (env, .accept tid sockfd) =>
    match st.net.threads tid with
    | some ⟨pid, .running, _, none⟩ =>
      (sysAcceptEnter env st.net tid pid sockfd).map fun r =>
        st.deliver (st.net.fds pid sockfd).resId r.net r.taken
    | _ => none
  | (env, .resume tid) =>
    match st.net.threads tid with
    | some ⟨pid, .ready, _, some (.accept sockfd l)⟩ =>
      (sysAcceptResume env st.net pid sockfd l).map fun r =>
        st.deliver l (finishThread r.net tid) r.taken
    | _ => none

/-- On every listening socket, the children returned by `sys_accept` and then those in the queue are
the children that completed their handshake for it, in this order; none completed it for a socket
that does not listen. -/
def AcceptDelivers (st : AcceptState) : Prop :=
  (∀ l s, st.net.sockets l = some s → s.state = .listen →
    ∃ queued : List ℕ, s.ring.contents backlogBufferSize = queued.flatMap idBytes ∧
      st.accepted l ++ queued = st.completed l) ∧
  ∀ l, st.completed l ≠ [] → st.net.stateOf l = some .listen

/-! ## The condition -/

def Sock.firstQueued (s : Sock) : ℕ :=
  leNat 8 fun k => (s.ring.contents backlogBufferSize).getD k 0

/-- The store of `sys_accept` for the first child in the queue of `l` hits no listener, and what the
clobbered pointer points at neither listens nor waits for the end of a handshake. -/
def StoreSpares (env : Env) (net : Net) (l : ℕ) : Prop :=
  ∀ s, net.sockets l = some s → s.ring.contents backlogBufferSize ≠ [] →
    let slot := (sizeofNetTuple * s.firstQueued + offsetofState) / 8
    slot < maxSocketsCount →
      net.stateOf slot ≠ some .listen ∧ env.wild.state ≠ .listen ∧ env.wild.state ≠ .synReceived

/-- The condition on a step: in addition, a socket listens with an empty queue only, and the store
of `sys_accept` spares the listeners. -/
def AcceptCall.Ok (st : AcceptState) : Env × AcceptCall → Prop
  | (_, .listen pid sockfd _) =>
    ∀ s, st.net.sockets (st.net.fds pid sockfd).resId = some s → s.state = .closed →
      s.head = s.tail ∧ s.head < backlogBufferSize
  | (env, .segment f) => SegmentQueues env st.net (decodeSegment f)
  | (env, .accept tid sockfd) => ∀ t, st.net.threads tid = some t →
      StoreSpares env st.net (st.net.fds t.pid sockfd).resId
  | (env, .resume tid) => ∀ t sockfd l, st.net.threads tid = some t →
      t.pending = some (.accept sockfd l) → StoreSpares env st.net l

/-! ## The invariant -/

/-- The queue of a listener holds the numbers of the children that are completed and not yet
accepted. -/
def QueueLaw (r : RingBuf UInt8) (accepted completed : List ℕ) : Prop :=
  r.Valid backlogBufferSize ∧ ∃ q : List ℕ, r.contents backlogBufferSize = q.flatMap idBytes ∧
    (∀ c ∈ q, c < noId) ∧ accepted ++ q = completed

/-- What holds in every run: the queues of the listeners, no history for other sockets, children
that wait know the listener they arrived for, and threads sleep in `sys_accept` on listeners. -/
structure AcceptInv (st : AcceptState) : Prop where
  queues : ∀ l p, st.net.parts l = some p → p.state = .listen →
    QueueLaw p.ring (st.accepted l) (st.completed l)
  idle : ∀ l, st.net.stateOf l ≠ some .listen → st.completed l = [] ∧ st.accepted l = []
  children : ∀ k p, st.net.parts k = some p → p.state = .synReceived →
    p.listenId = st.arrived k ∧ st.net.stateOf (st.arrived k) = some .listen
  sleepers : ∀ tid fd l, st.net.pendings tid = some (.accept fd l) →
    st.net.stateOf l = some .listen

section Invariant

variable {env : Env} {st : AcceptState} {net' : Net} {seg : Segment} {l k : ℕ}

theorem AcceptInv.delivers (h : AcceptInv st) : AcceptDelivers st := by
  constructor
  · intro l s hs hlisten
    obtain ⟨-, q, hq, -, hlaw⟩ := h.queues l _ (parts_of_sockets hs) hlisten
    exact ⟨q, hq, hlaw⟩
  · intro l hl
    by_contra hnot
    exact hl (h.idle l hnot).1

theorem exists_part_of_stateOf {state : NetState} (h : net.stateOf k = some state) :
    ∃ p, net.parts k = some p ∧ p.state = state := by
  rw [stateOf_eq_parts] at h
  exact map_eq_some_iff.mp h

theorem stateOf_of_part (h : net.parts k = some p) :
    net.stateOf k = some p.state := by
  rw [stateOf_eq_parts, h, map_some]

theorem CalmStep.stateOf_iff (h : CalmStep net net') (l : ℕ) :
    net'.stateOf l = some .listen ↔ net.stateOf l = some .listen := by
  constructor
  · intro hl
    obtain ⟨p, hp, hstate⟩ := exists_part_of_stateOf hl
    rw [stateOf_of_part (h.listener_of hp hstate), hstate]
  · intro hl
    obtain ⟨p, hp, hstate⟩ := exists_part_of_stateOf hl
    rw [stateOf_of_part (h.listener hp hstate), hstate]

theorem AcceptInv.calm (h : AcceptInv st) (hc : CalmStep st.net net') {arrived' : ℕ → ℕ}
    (harrived : ∀ k p, st.net.parts k = some p → arrived' k = st.arrived k) :
    AcceptInv { st with net := net', arrived := arrived' } := by
  constructor
  · intro l p hp hlisten
    exact h.queues l p (hc.listener_of hp hlisten) hlisten
  · intro l hl
    apply h.idle
    intro hlisten
    exact hl ((hc.stateOf_iff l).mpr hlisten)
  · intro k p' hp' hsyn
    -- the socket was waiting before
    obtain ⟨p, hp, hps, hid⟩ : ∃ p, st.net.parts k = some p ∧ p.state = .synReceived ∧
        p'.listenId = p.listenId := by
      rcases hc.parts k with hsame | ⟨q, hq, -, -, hwas⟩
      · exact ⟨p', hsame.symm.trans hp', hsyn, rfl⟩
      · cases hq.symm.trans hp'
        exact hwas hsyn
    obtain ⟨harr, hlisten⟩ := h.children k p hp hps
    have hsame := harrived k p hp
    dsimp only
    rw [hsame, hid]
    exact ⟨harr, (hc.stateOf_iff _).mpr hlisten⟩
  · intro tid fd l hpend
    rw [hc.pendings] at hpend
    exact (hc.stateOf_iff l).mpr (h.sleepers tid fd l hpend)

theorem AcceptInv.threads (h : AcceptInv st) (hparts : net'.parts = st.net.parts)
    (hpend : ∀ tid fd l, net'.pendings tid = some (.accept fd l) →
      st.net.stateOf l = some .listen) : AcceptInv { st with net := net' } := by
  have hstate : net'.stateOf = st.net.stateOf := by
    funext k
    rw [stateOf_eq_parts, stateOf_eq_parts, hparts]
  constructor
  · intro l p hp hlisten
    exact h.queues l p (hparts ▸ hp) hlisten
  · intro l hl
    exact h.idle l (hstate ▸ hl)
  · intro k p hp hsyn
    obtain ⟨harr, hlisten⟩ := h.children k p (hparts ▸ hp) hsyn
    exact ⟨harr, hstate ▸ hlisten⟩
  · intro tid fd l hp
    exact hstate ▸ hpend tid fd l hp

theorem lookupSocket_lt (h : lookupSocket env net seg = some id) :
    id < maxSocketsCount := by
  unfold lookupSocket at h
  split at h
  · rename_i hfound
    cases h
    unfold findSocketNotListen at hfound
    exact mem_range.mp (mem_of_find?_eq_some hfound)
  · unfold findSocket at h
    exact mem_range.mp (mem_of_find?_eq_some h)

theorem isNone_of_part (h : net.parts k = some p) :
    (net.sockets k).isNone = false := by
  obtain ⟨s, hs, -⟩ := map_eq_some_iff.mp h
  rw [hs]
  rfl

/-- The socket `l` listens after the step, its queue fits its history, and nothing else has
changed. -/
theorem AcceptInv.listener (h : AcceptInv st) {p' : QueuePart} {completed' accepted' : ℕ → List ℕ}
    (hparts : net'.parts = update st.net.parts l (some p')) (hp' : p'.state = .listen)
    (hlaw : QueueLaw p'.ring (accepted' l) (completed' l))
    (hcompleted : ∀ j ≠ l, completed' j = st.completed j)
    (haccepted : ∀ j ≠ l, accepted' j = st.accepted j) (hpend : net'.pendings = st.net.pendings) :
    AcceptInv { st with net := net', completed := completed', accepted := accepted' } := by
  have hself : net'.parts l = some p' := by rw [hparts, update_self]
  have hother : ∀ j ≠ l, net'.parts j = st.net.parts j := fun j hj => by
    rw [hparts, update_of_ne hj]
  have hkeep : ∀ j, st.net.stateOf j = some .listen → net'.stateOf j = some .listen := by
    intro j hj
    by_cases hjl : j = l
    · subst hjl
      rw [stateOf_of_part hself, hp']
    · rw [stateOf_eq_parts, hother j hjl, ← stateOf_eq_parts, hj]
  constructor
  · intro j p hp hlisten
    dsimp only at hp ⊢
    by_cases hjl : j = l
    · subst hjl
      cases hself.symm.trans hp
      exact hlaw
    · rw [hcompleted j hjl, haccepted j hjl]
      exact h.queues j p ((hother j hjl).symm.trans hp) hlisten
  · intro j hj
    have hjl : j ≠ l := by
      rintro rfl
      exact hj ((stateOf_of_part hself).trans (congrArg some hp'))
    dsimp only
    rw [hcompleted j hjl, haccepted j hjl]
    apply h.idle
    intro hlisten
    exact hj (hkeep j hlisten)
  · intro k p hp hsyn
    have hkl : k ≠ l := by
      rintro rfl
      cases hself.symm.trans hp
      rw [hp'] at hsyn
      cases hsyn
    obtain ⟨harr, hlisten⟩ := h.children k p ((hother k hkl).symm.trans hp) hsyn
    exact ⟨harr, hkeep _ hlisten⟩
  · intro tid fd j hp
    rw [hpend] at hp
    exact hkeep j (h.sleepers tid fd j hp)

/-! ### Segments -/

theorem AcceptInv.note_calm (h : AcceptInv st) (hc : CalmStep st.net net')
    (hsame : ∀ id, lookupSocket env st.net seg = some id →
      st.net.stateOf id = some .synReceived → net'.stateOf id = some .synReceived) :
    AcceptInv (st.note env seg net') := by
  unfold AcceptState.note
  split
  · exact h.calm hc fun _ _ _ => rfl
  · rename_i id hlookup
    have hnot : ¬(st.net.stateOf id = some .synReceived ∧ net'.stateOf id = some .established) := by
      rintro ⟨hsyn, hest⟩
      rw [hsame id hlookup hsyn] at hest
      cases hest
    rw [if_neg hnot]
    apply h.calm hc
    intro k p hp
    rw [isNone_of_part hp]
    rfl

/-- A child is made for the listener `l`. -/
theorem AcceptInv.note_child (h : AcceptInv st) {q : RingBuf UInt8}
    (hlookup : lookupSocket env st.net seg = some l) (hlisten : st.net.stateOf l = some .listen)
    (hfree : st.net.parts k = none)
    (hparts : net'.parts = update st.net.parts k (some ⟨.synReceived, l, q⟩))
    (hpend : net'.pendings = st.net.pendings) : AcceptInv (st.note env seg net') := by
  have hstate : st.net.stateOf k ≠ some .listen := by
    rw [stateOf_eq_parts, hfree]
    exact nofun
  have hkeep : ∀ j, st.net.stateOf j = some .listen → net'.stateOf j = some .listen := by
    intro j hj
    have hjk : j ≠ k := by
      rintro rfl
      exact hstate hj
    rw [stateOf_eq_parts, hparts, update_of_ne hjk, ← stateOf_eq_parts, hj]
  have hnot : ¬(st.net.stateOf l = some .synReceived ∧ net'.stateOf l = some .established) := by
    rintro ⟨hsyn, -⟩
    rw [hlisten] at hsyn
    cases hsyn
  have hpart : net'.parts k = some ⟨.synReceived, l, q⟩ := by
    rw [hparts, update_self]
  unfold AcceptState.note
  rw [hlookup]
  dsimp only
  rw [if_neg hnot]
  constructor
  · intro j p hp hj
    rw [hparts] at hp
    by_cases hjk : j = k
    · subst hjk
      rw [update_self] at hp
      cases hp
      cases hj
    · rw [update_of_ne hjk] at hp
      exact h.queues j p hp hj
  · intro j hj
    apply h.idle
    intro hlistens
    exact hj (hkeep j hlistens)
  · intro j p hp hsyn
    dsimp only at hp ⊢
    by_cases hjk : j = k
    · subst hjk
      cases hpart.symm.trans hp
      have hnone : (st.net.sockets j).isNone = true := by
        rw [isNone_iff_eq_none]
        exact map_eq_none_iff.mp hfree
      have hsome : (net'.sockets j).isSome = true := by
        obtain ⟨s, hs, -⟩ := map_eq_some_iff.mp hpart
        rw [hs]
        rfl
      rw [hnone, hsome]
      exact ⟨rfl, hkeep l hlisten⟩
    · rw [hparts, update_of_ne hjk] at hp
      obtain ⟨harr, hl⟩ := h.children j p hp hsyn
      rw [isNone_of_part hp]
      exact ⟨harr, hkeep _ hl⟩
  · intro tid fd j hp
    rw [hpend] at hp
    exact hkeep j (h.sleepers tid fd j hp)

/-- A child completes its handshake and its number is queued. -/
theorem AcceptInv.note_complete (h : AcceptInv st) (hq : SegmentQueues env st.net seg)
    {t : Sock} (hlookup : lookupSocket env st.net seg = some id)
    (hack : hasFlag seg.flags tcpAck = true) (hs : st.net.sockets id = some s)
    (hstate : s.state = .synReceived) (ht : st.net.sockets s.listenId = some t)
    (hpush : net1.parts = update st.net.parts s.listenId
      (some { t.queuePart with ring := (pushId backlogBufferSize t.ring id).1 }))
    (hpend : net1.pendings = st.net.pendings) (hcalm : CalmStep net1 net')
    (hest : net'.stateOf id = some .established) : AcceptInv (st.note env seg net') := by
  obtain ⟨harr, hlisten⟩ := h.children id _ (parts_of_sockets hs) hstate
  have hroom := hq.room hack id s t hlookup hs hstate ht
  rw [show s.listenId = st.arrived id from harr] at ht hpush
  have hlisten_t : t.state = .listen :=
    some.inj ((stateOf_of_part (parts_of_sockets ht)).symm.trans hlisten)
  obtain ⟨hvalid, q, hcontents, hlt, hlaw⟩ :=
    h.queues _ _ (parts_of_sockets ht) hlisten_t
  obtain ⟨-, hvalid', hcontents'⟩ := pushId_spec (by decide) hvalid hroom id
  -- the number joins the queue and the history at once
  have hqueued : AcceptInv { st with
      net := net1
      completed := update st.completed (st.arrived id)
        (st.completed (st.arrived id) ++ [id]) } := by
    refine h.listener hpush hlisten_t ⟨hvalid', q ++ [id], ?_, ?_, ?_⟩ ?_ (fun _ _ => rfl) hpend
    · refine hcontents'.trans ?_
      rw [hcontents, flatMap_append, flatMap_singleton]
    · intro c hc
      rcases mem_append.mp hc with hc | hc
      · exact hlt c hc
      · obtain rfl := mem_singleton.mp hc
        exact (lookupSocket_lt hlookup).trans (by decide)
    · rw [update_self, ← hlaw, append_assoc]
    · intro j hj
      exact update_of_ne hj _ _
  have hcond : st.net.stateOf id = some .synReceived ∧ net'.stateOf id = some .established :=
    ⟨(stateOf_of_part (parts_of_sockets hs)).trans (congrArg some hstate), hest⟩
  unfold AcceptState.note
  rw [hlookup]
  dsimp only
  rw [if_pos hcond]
  apply hqueued.calm hcalm
  intro k p hp
  have hsome : ∃ p, st.net.parts k = some p := by
    rw [hpush] at hp
    by_cases hk : k = st.arrived id
    · exact ⟨_, hk ▸ parts_of_sockets ht⟩
    · exact ⟨p, (update_of_ne hk _ _).symm.trans hp⟩
  obtain ⟨p0, hp0⟩ := hsome
  rw [isNone_of_part hp0]
  rfl

/-- **A segment that meets the condition keeps the invariant.** -/
theorem AcceptInv.segment (h : AcceptInv st) (hq : SegmentQueues env st.net seg)
    (hstep : handleSegment env st.net seg = some net') : AcceptInv (st.note env seg net') := by
  have hchild : ∀ k s, st.net.sockets k = some s → s.state = .synReceived →
      s.listenId ≠ k ∧ ∀ t, st.net.sockets s.listenId = some t →
        t.ring.Valid backlogBufferSize := by
    intro k s hs hsyn
    obtain ⟨harr, hlisten⟩ := h.children k _ (parts_of_sockets hs) hsyn
    rw [show s.listenId = st.arrived k from harr]
    constructor
    · intro hself
      rw [hself, stateOf_of_part (parts_of_sockets hs)] at hlisten
      have hboth := hsyn.symm.trans (some.inj hlisten)
      cases hboth
    · intro t ht
      rw [stateOf_of_part (parts_of_sockets ht)] at hlisten
      exact (h.queues _ _ (parts_of_sockets ht) (some.inj hlisten)).1
  cases handleSegment_queueEffect hq hchild hstep with
  | calm hc hsame => exact h.note_calm hc hsame
  | child l k q hlookup hlisten hfree hparts hpend =>
    exact h.note_child hlookup hlisten hfree hparts hpend
  | complete id s t net1 hlookup hack hs hstate ht hpush hpend hcalm hest =>
    exact h.note_complete hq hlookup hack hs hstate ht hpush hpend hcalm hest

/-! ### Calls -/

theorem createListen_same (net : Net) (tuple : NetTuple) :
    (createListen net tuple).1.sockets = net.sockets ∧
      (createListen net tuple).1.threads = net.threads := by
  unfold createListen
  split
  · exact ⟨rfl, rfl⟩
  split
  · exact ⟨rfl, rfl⟩
  · exact ⟨rfl, rfl⟩

theorem sysListen_cases {net' : Net} (h : sysListen env net pid sockfd backlog = some (net', r)) :
    net' = net ∨ ∃ s listenId, net.sockets (net.fds pid sockfd).resId = some s ∧
      s.state = .closed ∧ net'.pendings = net.pendings ∧
      net'.parts = update net.parts (net.fds pid sockfd).resId
        (some ⟨.listen, listenId, s.ring⟩) := by
  unfold sysListen at h
  split at h
  · cases h
    exact .inl rfl
  split at h
  · cases h
    exact .inl rfl
  dsimp only at h
  split at h
  · cases h
  rename_i s hs
  split at h
  · cases h
    exact .inl rfl
  split at h
  · cases h
    exact .inl rfl
  rename_i hclosed
  have hclosed := not_not.mp hclosed
  generalize hcreate : createListen net _ = created at h
  have hsame : created.1.sockets = net.sockets ∧ created.1.threads = net.threads := by
    rw [← hcreate]
    exact createListen_same net _
  obtain ⟨net1, listenId⟩ := created
  obtain rfl := congrArg Prod.fst (some.inj h)
  refine .inr ⟨s, listenId, hs, hclosed, ?_, ?_⟩
  · unfold Net.pendings
    rw [hsame.2]
  · refine (proj_update net1 _ _).trans ?_
    rw [proj_congr hsame.1]
    rfl

theorem AcceptInv.listen (h : AcceptInv st)
    (hok : AcceptCall.Ok st (env, .listen pid sockfd backlog))
    (hstep : sysListen env st.net pid sockfd backlog = some (net', r)) :
    AcceptInv { st with net := net' } := by
  rcases sysListen_cases hstep with rfl | ⟨s, listenId, hs, hclosed, hpend, hparts⟩
  · exact h
  · obtain ⟨hempty, hlt⟩ := hok s hs hclosed
    have hnot : st.net.stateOf (st.net.fds pid sockfd).resId ≠ some .listen := by
      rw [stateOf_of_part (parts_of_sockets hs), Sock.queuePart, hclosed]
      simp
    obtain ⟨hcompleted, haccepted⟩ := h.idle _ hnot
    have hvalid : s.ring.Valid backlogBufferSize := ⟨hempty.symm.trans_lt hlt, hlt⟩
    have hcount := (RingBuf.eq_iff_count_eq_zero hvalid).mp hempty.symm
    refine h.listener hparts rfl ⟨hvalid, [], ?_, by simp, ?_⟩ (fun _ _ => rfl)
      (fun _ _ => rfl) hpend
    · exact eq_nil_of_length_eq_zero (RingBuf.length_contents.trans hcount)
    · rw [hcompleted, haccepted]
      rfl

section

variable
  (h : (sizeofNetTuple * idx + offsetofState) / 8 < maxSocketsCount →
  net.stateOf ((sizeofNetTuple * idx + offsetofState) / 8) ≠ some .listen ∧
    env.wild.state ≠ .listen ∧ env.wild.state ≠ .synReceived)
include h

theorem calm_strayStore :
    CalmStep net (strayStore env net idx) := by
  unfold strayStore
  dsimp only
  split
  · rename_i hlt
    obtain ⟨hslot, hlisten, hsyn⟩ := h hlt
    refine ⟨?_, rfl⟩
    intro k
    rw [show Net.parts _ = _ from proj_update net _ env.wild]
    by_cases hk : k = (sizeofNetTuple * idx + offsetofState) / 8
    · subst hk
      rw [update_self]
      refine calm_leave ?_ hlisten hsyn
      intro p hp hstate
      exact hslot ((stateOf_of_part hp).trans (congrArg some hstate))
    · rw [update_of_ne hk]
      exact .inl rfl
  · exact .refl net

theorem calm_acceptConnection {fd : ℕ}
    (hstep : acceptConnection env net pid sockfd idx = some (net', fd)) : CalmStep net net' := by
  unfold acceptConnection at hstep
  dsimp only at hstep
  split at hstep
  · cases hstep
  · obtain rfl := congrArg Prod.fst (some.inj hstep)
    exact (calm_strayStore h).trans (calm_of_same rfl rfl)

end

theorem firstQueued_eq {c : ℕ} {q : List ℕ} (hc : c < noId)
    (h : s.ring.contents backlogBufferSize = (c :: q).flatMap idBytes) : s.firstQueued = c := by
  apply leNat_of_cells (hc.trans (by decide))
  rw [h, flatMap_cons]
  apply ext_getElem
  · rw [length_cells, length_idBytes]
  · intro i hi hi'
    simp only [cells, getElem_map, getElem_range]
    rw [getD_eq_getElem?_getD, getElem?_append_left hi', getElem?_eq_getElem hi']
    rfl

/-- **A number is taken from the queue of a listener**: the queue was empty, or it is the first
child that is completed and not accepted. -/
theorem AcceptInv.pull (h : AcceptInv st) (hl : st.net.stateOf l = some .listen)
    (hstore : StoreSpares env st.net l) (hpull : pullBacklog st.net l = some (net1, idx)) :
    net1.pendings = st.net.pendings ∧ (∀ j, net1.stateOf j = st.net.stateOf j) ∧
    (idx = noId → AcceptInv { st with net := net1 }) ∧
    (idx ≠ noId → ∀ net2 pid sockfd fd, acceptConnection env net1 pid sockfd idx = some (net2, fd) →
      AcceptInv (st.deliver l net2 (some idx))) := by
  obtain ⟨p, hp, hlisten⟩ := exists_part_of_stateOf hl
  obtain ⟨s, hs, rfl⟩ := map_eq_some_iff.mp hp
  obtain ⟨hvalid, q, hcontents, hlt, hlaw⟩ := h.queues l _ hp hlisten
  obtain ⟨r, hvalid', hcontents', heq⟩ := pullBacklog_spec hs hvalid hcontents hlt
  cases heq.symm.trans hpull
  have hparts : (st.net.modifySock l fun s => s.setRing r).parts =
      update st.net.parts l (some { s.queuePart with ring := r }) :=
    proj_modifySock_some hs _
  have hstate : ∀ j, (st.net.modifySock l fun s => s.setRing r).stateOf j = st.net.stateOf j := by
    intro j
    by_cases hj : j = l
    · subst hj
      rw [stateOf_eq_parts, hparts, update_self, hl, ← hlisten]
      rfl
    · rw [stateOf_eq_parts, hparts, update_of_ne hj, ← stateOf_eq_parts]
  refine ⟨rfl, hstate, ?_, ?_⟩
  · intro hnone
    cases q with
    | nil =>
      exact h.listener hparts hlisten ⟨hvalid', [], hcontents', nofun, hlaw⟩
        (fun _ _ => rfl) (fun _ _ => rfl) rfl
    | cons c q => exact absurd hnone (hlt c mem_cons_self).ne
  · intro hsome net2 pid sockfd fd hconnect
    cases q with
    | nil => exact absurd rfl hsome
    | cons c q =>
      have hc := hlt c mem_cons_self
      have hqueued : AcceptInv { st with
          net := st.net.modifySock l fun s => s.setRing r
          accepted := update st.accepted l (st.accepted l ++ [c]) } := by
        refine h.listener hparts hlisten ⟨hvalid', q, hcontents', ?_, ?_⟩ (fun _ _ => rfl) ?_ rfl
        · intro c' hc'
          exact hlt c' (mem_cons_of_mem c hc')
        · rw [update_self, append_assoc]
          exact hlaw
        · intro j hj
          exact update_of_ne hj _ _
      refine hqueued.calm (calm_acceptConnection ?_ hconnect) fun _ _ _ => rfl
      intro hslot
      have hspare := hstore s hs (by
        intro hnil
        have hnil := hcontents.symm.trans hnil
        have hlen := congrArg length (append_eq_nil_iff.mp hnil).1
        cases hlen)
      rw [firstQueued_eq hc hcontents] at hspare
      rw [hstate]
      exact hspare hslot

/-- `sys_accept` up to its sleep. -/
theorem AcceptInv.acceptEnter (h : AcceptInv st) {r : AcceptStep}
    (hstore : StoreSpares env st.net (st.net.fds pid sockfd).resId)
    (hstep : sysAcceptEnter env st.net tid pid sockfd = some r) :
    AcceptInv (st.deliver (st.net.fds pid sockfd).resId r.net r.taken) := by
  unfold sysAcceptEnter at hstep
  split at hstep
  · cases hstep
    exact h
  dsimp only at hstep
  split at hstep
  · cases hstep
  rename_i s hs
  split at hstep
  · cases hstep
    exact h
  rename_i hvalid
  have hlisten : s.state = .listen := by
    by_contra hnot
    exact hvalid (.inr hnot)
  have hl : st.net.stateOf (st.net.fds pid sockfd).resId = some .listen :=
    (stateOf_of_part (parts_of_sockets hs)).trans (congrArg some hlisten)
  split at hstep
  · cases hstep
  rename_i net1 idx hpull
  obtain ⟨hpend, hstate, hnone, hsome⟩ := h.pull hl hstore hpull
  split at hstep
  · rename_i hidx
    cases hstep
    refine (hnone hidx).threads rfl ?_
    -- the thread itself now sleeps on the listener
    intro tid' fd l' hp
    rw [hstate]
    unfold Net.pendings sleepByResource at hp
    dsimp only at hp
    by_cases ht : tid' = tid
    · subst ht
      rw [update_self] at hp
      cases hthread : net1.threads tid' with
      | none =>
        rw [hthread] at hp
        cases hp
      | some t =>
        rw [hthread] at hp
        cases hp
        exact hl
    · rw [update_of_ne ht] at hp
      apply h.sleepers tid' fd l'
      rw [← hpend]
      exact hp
  · rename_i hidx
    obtain ⟨⟨net2, fd⟩, hconnect, rfl⟩ := map_eq_some_iff.mp hstep
    exact hsome hidx net2 pid sockfd fd hconnect

theorem finishThread_pendings {tid' : ℕ} {p : Pending}
    (h : (finishThread net tid).pendings tid' = some p) : net.pendings tid' = some p := by
  unfold Net.pendings finishThread at h
  dsimp only at h
  by_cases ht : tid' = tid
  · subst ht
    rw [update_self] at h
    cases hthread : net.threads tid' with
    | none =>
      rw [hthread] at h
      cases h
    | some t =>
      rw [hthread] at h
      cases h
  · rw [update_of_ne ht] at h
    exact h

theorem AcceptInv.finish (h : AcceptInv st) (tid : ℕ) :
    AcceptInv { st with net := finishThread st.net tid } := by
  refine h.threads rfl ?_
  intro tid' fd l hp
  exact h.sleepers tid' fd l (finishThread_pendings hp)

theorem AcceptInv.acceptResume (h : AcceptInv st) {r : AcceptStep}
    (hl : st.net.stateOf l = some .listen) (hstore : StoreSpares env st.net l)
    (hstep : sysAcceptResume env st.net pid sockfd l = some r) :
    AcceptInv (st.deliver l r.net r.taken) := by
  unfold sysAcceptResume at hstep
  split at hstep
  · cases hstep
  rename_i net1 idx hpull
  obtain ⟨-, -, hnone, hsome⟩ := h.pull hl hstore hpull
  split at hstep
  · rename_i hidx
    cases hstep
    exact hnone hidx
  · rename_i hidx
    obtain ⟨⟨net2, fd⟩, hconnect, rfl⟩ := map_eq_some_iff.mp hstep
    exact hsome hidx net2 pid sockfd fd hconnect

theorem AcceptState.deliver_finish (st : AcceptState) (l tid : ℕ) (net : Net) (taken : Option ℕ) :
    st.deliver l (finishThread net tid) taken =
      { st.deliver l net taken with net := finishThread (st.deliver l net taken).net tid } := by
  cases taken <;> rfl

/-- **A step that meets the condition keeps the invariant.** -/
theorem AcceptInv.step (h : AcceptInv st) {c : Env × AcceptCall} {st' : AcceptState}
    (hok : AcceptCall.Ok st c) (hstep : AcceptCall.step st c = some st') : AcceptInv st' := by
  obtain ⟨env, call⟩ := c
  cases call with
  | listen pid sockfd backlog =>
    obtain ⟨⟨net', r⟩, hlisten, rfl⟩ := map_eq_some_iff.mp hstep
    exact h.listen hok hlisten
  | segment f =>
    rw [AcceptCall.step] at hstep
    obtain ⟨net', hsegment, rfl⟩ := map_eq_some_iff.mp hstep
    exact h.segment hok hsegment
  | accept tid sockfd =>
    rw [AcceptCall.step] at hstep
    split at hstep
    · rename_i pid _ hthread
      obtain ⟨r, haccept, rfl⟩ := map_eq_some_iff.mp hstep
      exact h.acceptEnter (hok _ hthread) haccept
    · cases hstep
  | resume tid =>
    rw [AcceptCall.step] at hstep
    split at hstep
    · rename_i pid _ sockfd l hthread
      obtain ⟨r, haccept, rfl⟩ := map_eq_some_iff.mp hstep
      have hpend : st.net.pendings tid = some (.accept sockfd l) := by
        rw [Net.pendings, hthread]
        rfl
      have hdelivered := h.acceptResume (h.sleepers tid sockfd l hpend)
        (hok _ sockfd l hthread rfl) haccept
      rw [AcceptState.deliver_finish]
      exact hdelivered.finish tid
    · cases hstep

end Invariant

/-! ## Runs -/

/-- Before the first `sys_listen`: no socket listens or waits for the end of a handshake, no thread
sleeps in `sys_accept`, and the history is empty. -/
structure AcceptStart (st : AcceptState) : Prop where
  states : ∀ k, st.net.stateOf k ≠ some .listen ∧ st.net.stateOf k ≠ some .synReceived
  pendings : ∀ tid fd l, st.net.pendings tid ≠ some (.accept fd l)
  completed : ∀ l, st.completed l = []
  accepted : ∀ l, st.accepted l = []

theorem AcceptStart.inv {st : AcceptState} (h : AcceptStart st) : AcceptInv st := by
  constructor
  · intro l p hp hlisten
    exact absurd ((stateOf_of_part hp).trans (congrArg some hlisten)) (h.states l).1
  · intro l _
    exact ⟨h.completed l, h.accepted l⟩
  · intro k p hp hsyn
    exact absurd ((stateOf_of_part hp).trans (congrArg some hsyn)) (h.states k).2
  · intro tid fd l hp
    exact absurd hp (h.pendings tid fd l)

/-- **Every completed child is delivered once, to its own listener, in order**, if all steps meet
the condition. -/
theorem acceptDelivers_of_run {st st' : AcceptState} {calls : List (Env × AcceptCall)}
    (hstart : AcceptStart st) (hrun : Run AcceptCall.step AcceptCall.Ok st calls st') :
    AcceptDelivers st' := by
  have hinv : AcceptInv st' := by
    refine hrun.invariant AcceptInv ?_ hstart.inv
    intro t c t' ht hok hstep
    exact ht.step hok hstep
  exact hinv.delivers

/-! ## A handshake -/

/-- A closed socket at `id` and a connection of another port at 0, or only the closed socket if
`id` is 0; descriptor 0 is the closed socket. -/
def handshakeStart (id : ℕ) : AcceptState where
  net :=
    { Net.ofSock { sampleSock .finWait2 with localPort := 9 } with
      sockets := update
        (update (fun _ => none) 0 (some { sampleSock .finWait2 with localPort := 9 })) id
        (some { sampleSock .closed with remoteIpL := 0, remotePort := 0 })
      threads := fun tid => if tid = 0 then some ⟨0, .running, none, none⟩ else none
      fds := fun _ fd =>
        if fd = 0 then { (default : FileInner) with type := .socket, resId := id } else default }
  arrived := fun _ => 0
  completed := fun _ => []
  accepted := fun _ => []

/-- `sys_listen`, the SYN, the ACK. -/
def handshake : List (Env × AcceptCall) :=
  [(resolvedEnv, .listen 0 0 1), (resolvedEnv, .segment (handshakeFrame 0x02)),
    (resolvedEnv, .segment (handshakeFrame 0x10))]

theorem handshakeStart_start (id : ℕ) : AcceptStart (handshakeStart id) where
  states := by
    intro k
    have hstate : (handshakeStart id).net.stateOf k = some .closed ∨
        (handshakeStart id).net.stateOf k = some .finWait2 ∨
        (handshakeStart id).net.stateOf k = none := by
      unfold Net.stateOf handshakeStart
      dsimp only
      by_cases hid : k = id
      · subst hid
        rw [update_self]
        exact .inl rfl
      · rw [update_of_ne hid]
        by_cases hk : k = 0
        · subst hk
          exact .inr (.inl rfl)
        · rw [update_of_ne hk]
          exact .inr (.inr rfl)
    rcases hstate with h | h | h <;> rw [h] <;> exact ⟨nofun, nofun⟩
  pendings := by
    intro tid fd l hp
    unfold Net.pendings handshakeStart at hp
    dsimp only at hp
    split at hp <;> cases hp
  completed := fun _ => rfl
  accepted := fun _ => rfl

/-- In a run in which the tables number the listener alike the child is accepted. -/
theorem acceptDelivers_of_run_handshake :
    ∃ st', Run AcceptCall.step AcceptCall.Ok (handshakeStart 0)
        (([(resolvedEnv, .listen 0 0 1)] ++ [(resolvedEnv, .segment (handshakeFrame 0x02))]) ++
          [(resolvedEnv, .segment (handshakeFrame 0x10))] ++ [(resolvedEnv, .accept 0 0)]) st' ∧
      st'.accepted 0 = [1] ∧ AcceptDelivers st' := by
  -- the states on the way, and what the condition asks of them
  obtain ⟨st₁, h₁, hlookup₁, hfind₁, st₂, h₂, hlookup₂, hlistenId₂, hcount₂, st₃, h₃,
      hslot₃, hqueued₃, hpid₃, hres₃, st₄, h₄, haccepted⟩ :
      ∃ st₁ ∈ AcceptCall.step (handshakeStart 0) (resolvedEnv, .listen 0 0 1),
        lookupSocket resolvedEnv st₁.net (decodeSegment (handshakeFrame 0x02)) = some 0 ∧
        findListen st₁.net
          ((decodeSegment (handshakeFrame 0x02)).tupleTcp resolvedEnv).toNetTuple = some 0 ∧
      ∃ st₂ ∈ AcceptCall.step st₁ (resolvedEnv, .segment (handshakeFrame 0x02)),
        lookupSocket resolvedEnv st₂.net (decodeSegment (handshakeFrame 0x10)) = some 1 ∧
        (st₂.net.sockets 1).map (fun s => s.listenId) = some 0 ∧
        (st₂.net.sockets 0).map (fun s => s.ring.count backlogBufferSize) = some 0 ∧
      ∃ st₃ ∈ AcceptCall.step st₂ (resolvedEnv, .segment (handshakeFrame 0x10)),
        st₃.net.stateOf 18 = none ∧ (st₃.net.sockets 0).map Sock.firstQueued = some 1 ∧
        (st₃.net.threads 0).map Thread.pid = some 0 ∧ (st₃.net.fds 0 0).resId = 0 ∧
      ∃ st₄ ∈ AcceptCall.step st₃ (resolvedEnv, .accept 0 0), st₄.accepted 0 = [1] := by
    decide +kernel
  have hok₁ : AcceptCall.Ok (handshakeStart 0) (resolvedEnv, .listen 0 0 1) := by
    intro s hs _
    cases hs
    exact ⟨rfl, by decide⟩
  have hok₂ : AcceptCall.Ok st₁ (resolvedEnv, .segment (handshakeFrame 0x02)) := by
    refine ⟨?_, ?_, ?_⟩
    · intro _ l s k hl _ _ hk
      exact some.inj (hk.symm.trans (hfind₁.trans (hlookup₁.symm.trans hl)))
    · intro hack
      cases hack
    · intro hpayload
      exact absurd rfl hpayload
  have hok₃ : AcceptCall.Ok st₂ (resolvedEnv, .segment (handshakeFrame 0x10)) := by
    refine ⟨?_, ?_, ?_⟩
    · intro hsyn
      cases hsyn
    · intro _ id s t hid hs _ ht
      cases hlookup₂.symm.trans hid
      rw [hs] at hlistenId₂
      rw [show s.listenId = 0 from some.inj hlistenId₂] at ht
      rw [ht] at hcount₂
      rw [show t.ring.count backlogBufferSize = 0 from some.inj hcount₂]
      decide
    · intro hpayload
      exact absurd rfl hpayload
  have hok₄ : AcceptCall.Ok st₃ (resolvedEnv, .accept 0 0) := by
    intro t ht s hs _
    rw [ht] at hpid₃
    rw [show t.pid = 0 from some.inj hpid₃, hres₃] at hs
    rw [hs] at hqueued₃
    rw [show s.firstQueued = 1 from some.inj hqueued₃]
    intro _ _
    refine ⟨?_, nofun, nofun⟩
    change st₃.net.stateOf 18 ≠ _
    rw [hslot₃]
    exact nofun
  have hrun :=
    (((Run.nil (handshakeStart 0)).snoc hok₁ h₁).snoc hok₂ h₂ |>.snoc hok₃ h₃).snoc hok₄ h₄
  exact ⟨st₄, hrun, haccepted, acceptDelivers_of_run (handshakeStart_start 0) hrun⟩

/-- **A child is queued on a socket that it did not arrive for**: its number is queued on the
connection at 0, the index of its listener in the listen table. -/
theorem child_queued_elsewhere :
    ∃ st', AcceptStart (handshakeStart 1) ∧
      Run AcceptCall.step (fun _ _ => True) (handshakeStart 1) handshake st' ∧
      st'.completed 1 = [2] ∧ st'.net.stateOf 2 = some .established ∧
      (st'.net.sockets 1).map (fun s => (s.state, s.ring.contents backlogBufferSize)) =
        some (.listen, []) ∧
      (st'.net.sockets 0).map (fun s => s.ring.contents backlogBufferSize) = some (idBytes 2) ∧
      ¬ AcceptDelivers st' := by
  simp only [exists_and_left]
  refine ⟨handshakeStart_start 1, Run.exists_of_eval (Q := fun st =>
    st.completed 1 = [2] ∧ st.accepted 1 = [] ∧ st.net.stateOf 2 = some .established ∧
    (st.net.sockets 1).map (fun s => (s.state, s.ring.contents backlogBufferSize)) =
      some (.listen, []) ∧
    (st.net.sockets 0).map (fun s => s.ring.contents backlogBufferSize) = some (idBytes 2))
    (by decide +kernel) ?_⟩
  rintro st' - ⟨hcompleted, haccepted, hstate, hlistener, hother⟩
  refine ⟨hcompleted, hstate, hlistener, hother, ?_⟩
  rintro ⟨hlaw, -⟩
  obtain ⟨s, hs, hpart⟩ := map_eq_some_iff.mp hlistener
  obtain ⟨hlisten, hempty⟩ := Prod.mk.inj hpart
  obtain ⟨q, hq, hsum⟩ := hlaw 1 s hs hlisten
  rw [hcompleted, haccepted] at hsum
  obtain rfl : q = [2] := hsum
  rw [hempty] at hq
  cases hq

end CarrotOS
