import CarrotOS.Lib.Run
import CarrotOS.Net.UnixStream

/-!
# Delivery of Unix-domain stream connections

Every connection that a client makes should be returned by one `handle_stream_accept`, in the order
of the connects, and this should establish the two sockets of the connection and no other. But the
first look at the queue takes a number and forgets it. So the law holds as long as the queue is
empty whenever the call is entered.

The history of a run is kept beside the tables: the connections made, and for each listener the
sockets that were returned. A connection made between the first look at the queue and the sleep
stays in the queue until the thread is woken by another one, and is not lost.
-/

namespace CarrotOS

open RingQueue Table Transition Function List

variable {i : ℕ} {sock : UdsTupleStream}

/-! ## Runs and their history -/

/-- A connection: the listener, and the sockets at its two ends. -/
structure Connection where
  listener : ℕ
  server : ℕ
  client : ℕ
  deriving DecidableEq, Repr

/-- The tables, the connections made, and for each listener the sockets returned. -/
structure StreamState where
  uds : Uds
  connected : List Connection
  accepted : ℕ → List ℕ

/-- The steps: `handle_connect_stream` with the bytes of a fresh block, and the three parts of
`handle_stream_accept`. -/
inductive StreamCall where
  | connect (clientSockId : ℕ) (sunPath : List UInt8) (fresh : ℕ → UInt8)
  | accept (tid listenerId : ℕ)
  | sleep (tid : ℕ)
  | resume (tid : ℕ)

/-- The connection that a connect makes if it succeeds. -/
def Uds.newConnection (u : Uds) (client : ℕ) (path : List UInt8) : Option Connection := do
  let listener ← u.findStreamListener path
  let server ← u.freeSocket
  some ⟨listener, server, client⟩

def StreamState.noteConnect (st : StreamState) (client : ℕ) (path : List UInt8) (r : Uds × Bool) :
    StreamState :=
  { st with
    uds := r.1
    connected :=
      if r.2 then st.connected ++ (st.uds.newConnection client path).toList else st.connected }

def StreamState.noteAccept (st : StreamState) (listener : ℕ) (e : Uds.AcceptEnd) : StreamState :=
  match e.taken with
  | none => { st with uds := e.uds }
  | some server =>
    { st with
      uds := e.uds
      accepted := update st.accepted listener (st.accepted listener ++ [server]) }

/-- One step. A thread makes one call at a time, and a thread that sleeps does not run. -/
def StreamCall.apply (st : StreamState) : StreamCall → Option StreamState
  | .connect client path fresh =>
    (st.uds.handleConnectStream fresh client path).map (st.noteConnect client path)
  | .accept tid listener =>
    match st.uds.threads tid with
    | some ⟨_, .running, _, none⟩ =>
      (st.uds.streamAcceptEnter tid listener).map fun r => { st with uds := r.1 }
    | _ => none
  | .sleep tid =>
    match st.uds.threads tid with
    | some ⟨_, .running, _, some (.sleep listener)⟩ =>
      some { st with uds := st.uds.streamAcceptSleep tid listener }
    | _ => none
  | .resume tid =>
    match st.uds.threads tid with
    | some ⟨pid, state, _, some (.pull listener)⟩ =>
      if state = .running ∨ state = .ready then
        (st.uds.streamAcceptFinish tid pid listener).map (st.noteAccept listener)
      else none
    | _ => none

/-! ## The law -/

/-- The sockets of the connections made to a listener, in their order. -/
def serversOf (connected : List Connection) (l : ℕ) : List ℕ :=
  (connected.filter fun c => c.listener = l).map Connection.server

def udsStateOf (t : ℕ → Option UdsTupleStream) (i : ℕ) : Option UdsState :=
  (t i).map UdsTupleStream.state

/-- For every listener, the connections returned by accepts and then those in the queue are the
connections made to it, in order and once each; and exactly the two sockets of each connection
returned have been established. -/
structure Delivers (u₀ : Uds) (st : StreamState) : Prop where
  queue : ∀ l s, st.uds.sockets l = some s → s.Listens →
    ∃ queued : List ℕ, s.ring.contents streamBufferSize = queued.flatMap idBytes ∧
      st.accepted l ++ queued = serversOf st.connected l
  once : (st.connected.map Connection.server).Nodup
  established : ∀ i, udsStateOf st.uds.sockets i = some .established ↔
    udsStateOf u₀.sockets i = some .established ∨
      ∃ c ∈ st.connected, c.server ∈ st.accepted c.listener ∧ (i = c.server ∨ i = c.client)

/-- Nothing has been connected or accepted, every listener has an empty queue, and no thread is
inside an accept. -/
structure Start (st : StreamState) : Prop where
  connected : st.connected = []
  accepted : st.accepted = fun _ => []
  queue : ∀ l s, st.uds.sockets l = some s → s.Listens →
    s.ring.Valid streamBufferSize ∧ s.ring.tail = s.ring.head
  rests : ∀ tid, st.uds.rests tid = none

/-- The calls in question: connects for which the queue has room, and accepts on a socket that
listens. -/
def StreamCall.Fits (st : StreamState) : StreamCall → Prop
  | .connect _ path _ => ∀ l ∈ st.uds.findStreamListener path, ∀ s ∈ st.uds.sockets l,
      8 ≤ streamBufferSize - 1 - s.ring.count streamBufferSize
  | .accept _ l => Holds st.uds.sockets l UdsTupleStream.Listens
  | .sleep _ => True
  | .resume _ => True

/-- The queue is empty when an accept is entered. -/
def StreamCall.Harmless (st : StreamState) : StreamCall → Prop
  | .accept _ l => Holds st.uds.sockets l fun s => s.ring.tail = s.ring.head
  | .connect .. => True
  | .sleep _ => True
  | .resume _ => True

instance (st : StreamState) : (call : StreamCall) → Decidable (call.Fits st)
  | .connect _ path _ => inferInstanceAs (Decidable (∀ l ∈ st.uds.findStreamListener path,
      ∀ s ∈ st.uds.sockets l, 8 ≤ streamBufferSize - 1 - s.ring.count streamBufferSize))
  | .accept _ l => inferInstanceAs (Decidable (Holds st.uds.sockets l UdsTupleStream.Listens))
  | .sleep _ => isTrue trivial
  | .resume _ => isTrue trivial

instance (st : StreamState) : (call : StreamCall) → Decidable (call.Harmless st)
  | .accept _ l =>
    inferInstanceAs (Decidable (Holds st.uds.sockets l fun s => s.ring.tail = s.ring.head))
  | .connect .. => isTrue trivial
  | .sleep _ => isTrue trivial
  | .resume _ => isTrue trivial

/-! ## The invariant -/

/-- The states of a socket that belongs to a connection. -/
def UdsState.Busy (state : UdsState) : Prop :=
  state ≠ .closed ∧ state ≠ .bound ∧ state ≠ .listen

/-- The two sockets of a connection know each other, as far as the accept needs it. -/
structure Linked (t : ℕ → Option UdsTupleStream) (c : Connection) : Prop where
  server : Holds t c.server fun s => s.peerId = c.client ∧ s.state.Busy
  client : Holds t c.client fun s => s.state.Busy

def ends (connected : List Connection) : List ℕ :=
  connected.flatMap fun c => [c.server, c.client]

/-- What holds of the sockets in every run. -/
structure Joined (t₀ t : ℕ → Option UdsTupleStream) (connected : List Connection)
    (accepted : ℕ → List ℕ) : Prop where
  queues : ∀ l s, t l = some s → s.Listens →
    ∃ q, Queued streamBufferSize s.ring q ∧ accepted l ++ q = serversOf connected l
  linked : ∀ c ∈ connected, Linked t c
  nodup : (ends connected).Nodup
  established : ∀ i, udsStateOf t i = some .established ↔
    udsStateOf t₀ i = some .established ∨
      ∃ c ∈ connected, c.server ∈ accepted c.listener ∧ (i = c.server ∨ i = c.client)

/-- What holds in every run: also, threads are inside accepts on sockets that listen. -/
structure Sound (u₀ : Uds) (st : StreamState) : Prop where
  joined : Joined u₀.sockets st.uds.sockets st.connected st.accepted
  rests : ∀ tid l, st.uds.rests tid = some (.sleep l) ∨ st.uds.rests tid = some (.pull l) →
    Holds st.uds.sockets l UdsTupleStream.Listens

section Connections

variable {connected : List Connection} {c c' : Connection} {l : ℕ}

theorem mem_serversOf :
    i ∈ serversOf connected l ↔ ∃ c ∈ connected, c.listener = l ∧ c.server = i := by
  simp [serversOf, and_assoc]

theorem serversOf_snoc (connected : List Connection) (c : Connection) (l : ℕ) :
    serversOf (connected ++ [c]) l =
      serversOf connected l ++ if c.listener = l then [c.server] else [] := by
  split_ifs with h <;> simp [serversOf, h]

theorem ends_snoc (connected : List Connection) (c : Connection) :
    ends (connected ++ [c]) = ends connected ++ [c.server, c.client] := by
  simp [ends]

theorem mem_ends :
    i ∈ ends connected ↔ ∃ c ∈ connected, i = c.server ∨ i = c.client := by
  simp [ends]

theorem servers_sublist_ends (connected : List Connection) :
    (connected.map Connection.server).Sublist (ends connected) := by
  induction connected with
  | nil => exact .slnil
  | cons c connected ih =>
    exact (ih.cons c.client).cons_cons c.server

theorem servers_nodup (h : (ends connected).Nodup) : (connected.map Connection.server).Nodup :=
  h.sublist (servers_sublist_ends connected)

theorem eq_of_server (h : (ends connected).Nodup) (hc : c ∈ connected) (hc' : c' ∈ connected)
    (heq : c.server = c'.server) : c = c' :=
  inj_on_of_nodup_map (servers_nodup h) hc hc' heq

end Connections

/-! ## The sockets through one step -/

section Joined

variable {t₀ t t' : ℕ → Option UdsTupleStream} {connected : List Connection}
  {accepted : ℕ → List ℕ} {c : Connection} {s : UdsTupleStream} {l i client server : ℕ}
  {fresh : ℕ → UInt8} {q : List ℕ} {ring : RingBuf UInt8}

theorem udsStateOf_setRing (t : ℕ → Option UdsTupleStream) (l : ℕ) (ring : RingBuf UInt8) (i : ℕ) :
    udsStateOf (modify t l fun s => { s with ring := ring }) i = udsStateOf t i := by
  rw [udsStateOf, udsStateOf]
  by_cases hi : i = l
  · subst hi
    rw [modify_self, Option.map_map]
    rfl
  · rw [modify_of_ne hi]

theorem Joined.busy (h : Joined t₀ t connected accepted) (hi : i ∈ ends connected) :
    Holds t i fun s => s.state.Busy := by
  obtain ⟨c, hc, rfl | rfl⟩ := mem_ends.mp hi
  · obtain ⟨s, hs, -, hbusy⟩ := (h.linked c hc).server
    exact ⟨s, hs, hbusy⟩
  · exact (h.linked c hc).client

theorem Joined.mem_of_accepted (h : Joined t₀ t connected accepted) (hs : t l = some s)
    (hlistens : s.Listens) (hi : i ∈ accepted l) : i ∈ ends connected := by
  obtain ⟨q, -, hlaw⟩ := h.queues l s hs hlistens
  have hserver : i ∈ serversOf connected l := by
    rw [← hlaw]
    exact mem_append_left q hi
  obtain ⟨c, hc, -, rfl⟩ := mem_serversOf.mp hserver
  exact mem_ends.mpr ⟨c, hc, .inl rfl⟩

theorem Joined.setRing (h : Joined t₀ t connected accepted)
    (hq : Queued streamBufferSize ring q) (hlaw : accepted l ++ q = serversOf connected l) :
    Joined t₀ (modify t l fun s => { s with ring := ring }) connected accepted := by
  refine ⟨?_, ?_, h.nodup, ?_⟩
  · intro i y hy hlistens
    obtain ⟨x, hx, rfl⟩ := modify_eq_some.mp hy
    by_cases hi : i = l
    · subst hi
      rw [if_pos rfl]
      exact ⟨q, hq, hlaw⟩
    · rw [if_neg hi] at hlistens ⊢
      exact h.queues i x hx hlistens
  · intro c hc
    obtain ⟨hserver, hclient⟩ := h.linked c hc
    exact ⟨hserver.modify fun _ _ _ hP => hP, hclient.modify fun _ _ _ hP => hP⟩
  · intro i
    rw [udsStateOf_setRing]
    exact h.established i

section

variable (heff : ConnectEffect fresh client server l t t')
include heff

theorem ConnectEffect.eq_of_busy (hi : Holds t i fun s => s.state.Busy) :
    i ≠ client ∧ i ≠ server ∧ i ≠ l := by
  obtain ⟨x, hx, hclosed, hbound, hlisten⟩ := hi
  refine ⟨?_, ?_, ?_⟩
  · rintro rfl
    obtain ⟨c, hc, hstate, -⟩ := heff.clientSock
    cases hx.symm.trans hc
    exact hstate.elim hclosed hbound
  · rintro rfl
    rw [heff.free] at hx
    cases hx
  · rintro rfl
    obtain ⟨s, hs, hlistens, -⟩ := heff.listener
    cases hx.symm.trans hs
    exact hlisten hlistens.2

theorem ConnectEffect.listens (hi : Holds t i UdsTupleStream.Listens) :
    Holds t' i UdsTupleStream.Listens := by
  obtain ⟨x, hx, hlistens⟩ := hi
  by_cases hil : i = l
  · subst hil
    obtain ⟨s, hs, hs', ht'⟩ := heff.listener
    exact ⟨_, ht', hs'⟩
  · refine ⟨x, (heff.other i ?_ ?_ hil).trans hx, hlistens⟩
    · rintro rfl
      obtain ⟨c, hc, hstate, -⟩ := heff.clientSock
      cases hx.symm.trans hc
      rw [hlistens.2] at hstate
      simp at hstate
    · rintro rfl
      rw [heff.free] at hx
      cases hx

theorem ConnectEffect.established_iff (i : ℕ) :
    udsStateOf t' i = some .established ↔ udsStateOf t i = some .established := by
  obtain ⟨c, hc, hstate, hc'⟩ := heff.clientSock
  obtain ⟨s, hs, hlistens, hs'⟩ := heff.listener
  rw [udsStateOf, udsStateOf]
  by_cases hic : i = client
  · subst hic
    rcases hstate with hstate | hstate <;> simp [hc, hc', hstate]
  by_cases his : i = server
  · subst his
    simp [heff.free, heff.serverSock, Uds.serverSock]
  by_cases hil : i = l
  · subst hil
    simp [hs, hs']
  · rw [heff.other i hic his hil]

end

theorem Joined.connect (h : Joined t₀ t connected accepted)
    (heff : ConnectEffect fresh client server l t t')
    (hroom : ∀ s, t l = some s → 8 ≤ streamBufferSize - 1 - s.ring.count streamBufferSize) :
    Joined t₀ t' (connected ++ [⟨l, server, client⟩]) accepted := by
  obtain ⟨k, hk, hstate, hk'⟩ := heff.clientSock
  obtain ⟨s, hs, hlistens, hs'⟩ := heff.listener
  have hends : ∀ i ∈ ends connected, t' i = t i ∧ i ≠ client ∧ i ≠ server := by
    intro i hi
    obtain ⟨hic, his, hil⟩ := heff.eq_of_busy (h.busy hi)
    exact ⟨heff.other i hic his hil, hic, his⟩
  have hfresh : server ∉ accepted l := fun hmem =>
    (hends server (h.mem_of_accepted hs hlistens hmem)).2.2 rfl
  refine ⟨?_, ?_, ?_, ?_⟩
  · intro i y hy hy'
    rw [serversOf_snoc]
    by_cases hil : i = l
    · subst hil
      cases hs'.symm.trans hy
      obtain ⟨q, hq, hlaw⟩ := h.queues i s hs hlistens
      refine ⟨q ++ [server], hq.write (by decide) (hroom s hs) ?_, ?_⟩
      · exact heff.lt.trans (by decide)
      · rw [if_pos rfl, ← append_assoc, hlaw]
    · rw [if_neg (Ne.symm hil), append_nil]
      by_cases hic : i = client
      · subst hic
        cases hk'.symm.trans hy
        cases hy'.2
      by_cases his : i = server
      · subst his
        cases heff.serverSock.symm.trans hy
        cases hy'.2
      exact h.queues i y ((heff.other i hic his hil).symm.trans hy) hy'
  · intro c hc
    rcases mem_append.mp hc with hc | hc
    · obtain ⟨⟨x, hx, hserver⟩, ⟨y, hy, hclient⟩⟩ := h.linked c hc
      have hserver' := (hends c.server (mem_ends.mpr ⟨c, hc, .inl rfl⟩)).1
      have hclient' := (hends c.client (mem_ends.mpr ⟨c, hc, .inr rfl⟩)).1
      exact ⟨⟨x, hserver'.trans hx, hserver⟩, ⟨y, hclient'.trans hy, hclient⟩⟩
    · obtain rfl := mem_singleton.mp hc
      exact ⟨⟨_, heff.serverSock, rfl, nofun, nofun, nofun⟩, ⟨_, hk', nofun, nofun, nofun⟩⟩
  · have hne : server ≠ client := by
      rintro rfl
      rw [heff.free] at hk
      cases hk
    rw [ends_snoc, nodup_append]
    refine ⟨h.nodup, by simpa using hne, fun i hi j hj => ?_⟩
    rintro rfl
    obtain ⟨-, hic, his⟩ := hends i hi
    simp [hic, his] at hj
  · intro i
    rw [heff.established_iff, h.established]
    refine or_congr_right ⟨?_, ?_⟩
    · rintro ⟨c, hc, hrest⟩
      exact ⟨c, mem_append_left _ hc, hrest⟩
    · rintro ⟨c, hc, hacc, hi⟩
      rcases mem_append.mp hc with hc | hc
      · exact ⟨c, hc, hacc, hi⟩
      · obtain rfl := mem_singleton.mp hc
        exact absurd hacc hfresh

theorem udsStateOf_establish (t : ℕ → Option UdsTupleStream) (j i : ℕ) (hj : ∃ s, t j = some s) :
    udsStateOf (modify t j fun s => { s with state := .established }) i = some .established ↔
      udsStateOf t i = some .established ∨ i = j := by
  obtain ⟨s, hs⟩ := hj
  rw [udsStateOf, udsStateOf]
  by_cases hi : i = j
  · subst hi
    simp [modify_self, hs]
  · simp [modify_of_ne hi, hi]

theorem Joined.first (h : Joined t₀ t connected accepted) (hs : t l = some s) (hlistens : s.Listens)
    (hlaw : accepted l ++ server :: q = serversOf connected l)
    (hsock : modify t l (fun s => { s with ring := ring }) server = some sock) :
    ∃ c ∈ connected, c.listener = l ∧ c.server = server ∧ sock.peerId = c.client := by
  obtain ⟨c, hc, rfl, rfl⟩ : ∃ c ∈ connected, c.listener = l ∧ c.server = server := by
    refine mem_serversOf.mp ?_
    rw [← hlaw]
    exact mem_append_right _ mem_cons_self
  obtain ⟨x, hx, hpeer, hbusy⟩ := (h.linked c hc).server
  have hne : c.server ≠ c.listener := by
    intro heq
    rw [heq] at hx
    cases hs.symm.trans hx
    exact hbusy.2.2 hlistens.2
  rw [modify_of_ne hne] at hsock
  cases hx.symm.trans hsock
  exact ⟨c, hc, rfl, rfl, hpeer⟩

theorem Joined.ne_of_listens (h : Joined t₀ t connected accepted)
    (hl : Holds t l UdsTupleStream.Listens) (hi : i ∈ ends connected) : i ≠ l := by
  rintro rfl
  obtain ⟨x, hx, hbusy⟩ := h.busy hi
  obtain ⟨y, hy, hlistens⟩ := hl
  cases hx.symm.trans hy
  exact hbusy.2.2 hlistens.2

/-- The first connection of the queue is returned. -/
theorem Joined.accept (h : Joined t₀ t connected accepted) (hs : t l = some s)
    (hlistens : s.Listens) (hq : Queued streamBufferSize ring q)
    (hlaw : accepted l ++ server :: q = serversOf connected l)
    (hsock : modify t l (fun s => { s with ring := ring }) server = some sock) :
    Joined t₀ (modify (modify (modify t l fun s => { s with ring := ring }) server
      fun s => { s with state := .established }) sock.peerId
      fun s => { s with state := .established }) connected
      (update accepted l (accepted l ++ [server])) := by
  obtain ⟨c, hc, rfl, rfl, hpeer⟩ := h.first hs hlistens hlaw hsock
  obtain ⟨⟨x, hx, -⟩, ⟨y, hy, -⟩⟩ := h.linked c hc
  rw [hpeer]
  refine ⟨?_, ?_, h.nodup, ?_⟩
  · intro i z hz hz'
    obtain ⟨z1, hz1, rfl⟩ := modify_eq_some.mp hz
    split_ifs at hz' with hi1
    · cases hz'.2
    obtain ⟨z2, hz2, rfl⟩ := modify_eq_some.mp hz1
    split_ifs at hz' with hi2
    · cases hz'.2
    obtain ⟨z3, hz3, rfl⟩ := modify_eq_some.mp hz2
    rw [if_neg hi1, if_neg hi2]
    by_cases hi : i = c.listener
    · subst hi
      rw [if_pos rfl, update_self]
      refine ⟨q, hq, ?_⟩
      rw [append_assoc]
      exact hlaw
    · rw [if_neg hi] at hz' ⊢
      rw [update_of_ne hi]
      exact h.queues i z3 hz3 hz'
  · intro c' hc'
    obtain ⟨hserver, hclient⟩ := h.linked c' hc'
    have hkeep : UdsState.established.Busy := ⟨nofun, nofun, nofun⟩
    constructor
    · refine Holds.modify (Holds.modify (hserver.modify ?_) ?_) ?_
      · exact fun _ _ _ hP => hP
      · exact fun _ _ _ hP => ⟨hP.1, hkeep⟩
      · exact fun _ _ _ hP => ⟨hP.1, hkeep⟩
    · refine Holds.modify (Holds.modify (hclient.modify ?_) ?_) ?_
      · exact fun _ _ _ hP => hP
      · exact fun _ _ _ _ => hkeep
      · exact fun _ _ _ _ => hkeep
  · intro i
    have hclient : ∃ z, modify (modify t c.listener fun s => { s with ring := ring }) c.server
        (fun s => { s with state := .established }) c.client = some z :=
      ⟨_, modify_eq_some.mpr ⟨_, modify_eq_some.mpr ⟨y, hy, rfl⟩, rfl⟩⟩
    rw [udsStateOf_establish _ _ _ hclient, udsStateOf_establish _ _ _ ⟨sock, hsock⟩,
      udsStateOf_setRing, h.established, or_assoc, or_assoc]
    refine or_congr_right ⟨?_, ?_⟩
    · rintro (⟨c', hc', hacc, hi⟩ | hi)
      · refine ⟨c', hc', ?_, hi⟩
        by_cases hl : c'.listener = c.listener
        · rw [hl, update_self]
          exact mem_append_left _ (hl ▸ hacc)
        · rwa [update_of_ne hl]
      · refine ⟨c, hc, ?_, hi⟩
        rw [update_self]
        exact mem_append_right _ (mem_singleton.mpr rfl)
    · rintro ⟨c', hc', hacc, hi⟩
      by_cases hl : c'.listener = c.listener
      · rw [hl, update_self] at hacc
        rcases mem_append.mp hacc with hacc | hacc
        · exact .inl ⟨c', hc', hl ▸ hacc, hi⟩
        · obtain rfl := eq_of_server h.nodup hc' hc (mem_singleton.mp hacc)
          exact .inr hi
      · rw [update_of_ne hl] at hacc
        exact .inl ⟨c', hc', hacc, hi⟩

end Joined

/-! ## Runs -/

section Runs

variable {u₀ : Uds} {st st₀ st' : StreamState} {call : StreamCall} {calls : List StreamCall}
  {tid l : ℕ}

theorem Sound.of_start (h : Start st) : Sound st.uds st := by
  refine ⟨⟨?_, ?_, ?_, ?_⟩, ?_⟩
  · intro l s hs hlistens
    obtain ⟨hvalid, hempty⟩ := h.queue l s hs hlistens
    have hcount := (RingBuf.eq_iff_count_eq_zero hvalid).mp hempty
    refine ⟨[], ⟨hvalid, ?_, nofun⟩, ?_⟩
    · exact eq_nil_of_length_eq_zero (RingBuf.length_contents.trans hcount)
    · rw [h.connected, h.accepted]
      rfl
  · rw [h.connected]
    nofun
  · rw [h.connected]
    exact nodup_nil
  · intro i
    simp [h.connected]
  · intro tid l hrest
    rw [h.rests tid] at hrest
    simp at hrest

section

variable (h : Sound u₀ st)
include h

theorem Sound.delivers : Delivers u₀ st := by
  refine ⟨?_, servers_nodup h.joined.nodup, h.joined.established⟩
  intro l s hs hlistens
  obtain ⟨q, hq, hlaw⟩ := h.joined.queues l s hs hlistens
  exact ⟨q, hq.contents, hlaw⟩

theorem Sound.connect {client : ℕ} {path : List UInt8} {fresh : ℕ → UInt8} {r : Uds × Bool}
    (hfits : (StreamCall.connect client path fresh).Fits st)
    (hstep : st.uds.handleConnectStream fresh client path = some r) :
    Sound u₀ (st.noteConnect client path r) := by
  obtain ⟨uds, b⟩ := r
  obtain ⟨rfl, rfl⟩ | ⟨rfl, l, server, hl, hserver, heff, hrests⟩ := connect_cases hstep
  · exact h
  · have hnew : st.uds.newConnection client path = some ⟨l, server, client⟩ := by
      rw [Uds.newConnection, hl, hserver]
      rfl
    rw [StreamState.noteConnect, hnew]
    refine ⟨h.joined.connect heff fun s hs => hfits l hl s hs, fun tid l' hrest => ?_⟩
    rw [hrests] at hrest
    exact heff.listens (h.rests tid l' hrest)

theorem Sound.accept {r : Uds × Option ℕ} (hfits : (StreamCall.accept tid l).Fits st)
    (hharmless : (StreamCall.accept tid l).Harmless st)
    (hstep : st.uds.streamAcceptEnter tid l = some r) : Sound u₀ { st with uds := r.1 } := by
  obtain ⟨s, hs, hlistens⟩ := id hfits
  obtain ⟨s', hs', hempty⟩ := hharmless
  cases hs.symm.trans hs'
  obtain ⟨q, hq, hlaw⟩ := h.joined.queues l s hs hlistens
  obtain rfl := hq.eq_nil hempty
  obtain ⟨ring, hring, hsockets, hother, hself⟩ := enter_cases hs hlistens.1 hq hstep
  have hkeep : ∀ {i}, Holds st.uds.sockets i UdsTupleStream.Listens →
      Holds r.1.sockets i UdsTupleStream.Listens := by
    intro i hi
    rw [hsockets]
    exact hi.modify fun _ _ _ hP => hP
  refine ⟨?_, fun tid' l' hrest => ?_⟩
  · rw [hsockets]
    exact h.joined.setRing hring hlaw
  · by_cases htid : tid' = tid
    · subst htid
      -- the thread waits on the listener of this call
      obtain rfl : l' = l := by
        rcases hrest with hrest | hrest
        all_goals
          have := hself _ hrest
          simpa using this
      exact hkeep hfits
    · rw [hother tid' htid] at hrest
      exact hkeep (h.rests tid' l' hrest)

theorem Sound.sleep (hrest : st.uds.rests tid = some (.sleep l)) :
    Sound u₀ { st with uds := st.uds.streamAcceptSleep tid l } := by
  refine ⟨h.joined, fun tid' l' hrest' => ?_⟩
  dsimp only [Uds.streamAcceptSleep] at hrest'
  by_cases htid : tid' = tid
  · subst htid
    rw [Uds.rests, Uds.threads_modifyThread, modify_self, Option.bind_map] at hrest'
    obtain rfl : l' = l := by
      rcases hrest' with hrest' | hrest'
      all_goals
        obtain ⟨t, -, ht⟩ := Option.bind_eq_some_iff.mp hrest'
        simpa using ht.symm
    exact h.rests tid' l' (.inl hrest)
  · rw [rests_modifyThread_of_ne _ htid] at hrest'
    exact h.rests tid' l' hrest'

theorem Sound.resume {pid : ℕ} {e : Uds.AcceptEnd} (hrest : st.uds.rests tid = some (.pull l))
    (hstep : st.uds.streamAcceptFinish tid pid l = some e) : Sound u₀ (st.noteAccept l e) := by
  obtain ⟨s, hs, hlistens⟩ := h.rests tid l (.inr hrest)
  obtain ⟨q, hq, hlaw⟩ := h.joined.queues l s hs hlistens
  obtain ⟨ring, hring, hrests, hcases⟩ := finish_cases hs hq hstep
  -- a thread that is still inside an accept is another one
  have hother : ∀ {tid' l'}, e.uds.rests tid' = some (.sleep l') ∨
      e.uds.rests tid' = some (.pull l') → Holds st.uds.sockets l' UdsTupleStream.Listens := by
    intro tid' l' hrest'
    rw [hrests] at hrest'
    split_ifs at hrest'
    · simp at hrest'
    · exact h.rests tid' l' hrest'
  obtain ⟨rfl, htaken, hsockets⟩ | ⟨server, q, sock, rfl, htaken, hsock, hsockets⟩ := hcases
  · rw [StreamState.noteAccept, htaken]
    refine ⟨?_, fun tid' l' hrest' => ?_⟩
    · rw [hsockets]
      exact h.joined.setRing hring hlaw
    · rw [hsockets]
      exact (hother hrest').modify fun _ _ _ hP => hP
  · rw [StreamState.noteAccept, htaken]
    obtain ⟨c, hc, -, hserver, hpeer⟩ := h.joined.first hs hlistens hlaw hsock
    refine ⟨?_, fun tid' l' hrest' => ?_⟩
    · rw [hsockets]
      exact h.joined.accept hs hlistens hring hlaw hsock
    · rw [hsockets, ← hserver, hpeer]
      have hl' := hother hrest'
      have hne := h.joined.ne_of_listens hl' (mem_ends.mpr ⟨c, hc, .inl rfl⟩)
      have hne' := h.joined.ne_of_listens hl' (mem_ends.mpr ⟨c, hc, .inr rfl⟩)
      refine Holds.modify (Holds.modify (hl'.modify fun _ _ _ hP => hP) ?_) ?_
      · exact fun heq => absurd heq hne.symm
      · exact fun heq => absurd heq hne'.symm

theorem Sound.apply (hfits : call.Fits st) (hharmless : call.Harmless st)
    (hstep : call.apply st = some st') : Sound u₀ st' := by
  cases call with
  | connect client path fresh =>
    obtain ⟨r, hr, rfl⟩ := Option.map_eq_some_iff.mp hstep
    exact h.connect hfits hr
  | accept tid l =>
    simp only [StreamCall.apply] at hstep
    split at hstep
    · obtain ⟨r, hr, rfl⟩ := Option.map_eq_some_iff.mp hstep
      exact h.accept hfits hharmless hr
    · cases hstep
  | sleep tid =>
    simp only [StreamCall.apply] at hstep
    split at hstep
    · rename_i pid addr l hthread
      cases hstep
      refine h.sleep ?_
      rw [Uds.rests, hthread]
      rfl
    · cases hstep
  | resume tid =>
    simp only [StreamCall.apply] at hstep
    split at hstep
    · rename_i pid state addr l hthread
      obtain ⟨-, hstep⟩ := Option.ite_none_right_eq_some.mp hstep
      obtain ⟨e, he, rfl⟩ := Option.map_eq_some_iff.mp hstep
      refine h.resume ?_ he
      rw [Uds.rests, hthread]
      rfl
    · cases hstep

/-- An accept that is entered while a connection waits forgets it. -/
theorem not_delivers_of_enter (hfits : (StreamCall.accept tid l).Fits st)
    (hharmless : ¬(StreamCall.accept tid l).Harmless st)
    (hstep : (StreamCall.accept tid l).apply st = some st') : ¬Delivers u₀ st' := by
  intro hdelivers
  obtain ⟨s, hs, hlistens⟩ := hfits
  obtain ⟨q, hq, hlaw⟩ := h.joined.queues l s hs hlistens
  simp only [StreamCall.apply] at hstep
  split at hstep
  · obtain ⟨⟨uds, r⟩, hr, rfl⟩ := Option.map_eq_some_iff.mp hstep
    obtain ⟨ring, hring, hsockets, -⟩ := enter_cases hs hlistens.1 hq hr
    have hl : uds.sockets l = some { s with ring := ring } := by
      rw [hsockets, modify_self, hs]
      rfl
    obtain ⟨queued, hcontents, hlaw'⟩ := hdelivers.queue l _ hl hlistens
    -- the history asks for all of the queue, and one number is gone
    obtain rfl : queued = q := append_cancel_left (hlaw'.trans hlaw.symm)
    have hlength := congrArg length (hcontents.symm.trans hring.contents)
    rw [length_flatMap_idBytes, length_flatMap_idBytes, length_tail] at hlength
    refine hharmless ⟨s, hs, (RingBuf.eq_iff_count_eq_zero hq.valid).mpr ?_⟩
    rw [hq.length]
    omega
  · cases hstep

end

/-- The next call after harmless ones keeps the law exactly if it is harmless too: an accept is
entered with an empty queue only. -/
theorem delivers_iff_harmless (hstart : Start st₀)
    (hrun : Run StreamCall.apply (fun st call => call.Fits st ∧ call.Harmless st) st₀ calls st)
    (hfits : call.Fits st) (hstep : call.apply st = some st') :
    Delivers st₀.uds st' ↔ call.Harmless st := by
  have hsound : Sound st₀.uds st := by
    refine hrun.invariant (Sound st₀.uds) ?_ (.of_start hstart)
    intro st call st' h hok hstep
    exact h.apply hok.1 hok.2 hstep
  constructor
  · intro hdelivers
    cases call with
    | accept tid l =>
      by_contra hharmless
      exact not_delivers_of_enter hsound hfits hharmless hstep hdelivers
    | connect client path fresh => trivial
    | sleep tid => trivial
    | resume tid => trivial
  · intro hharmless
    exact (hsound.apply hfits hharmless hstep).delivers

end Runs

/-! ## Two clients -/

/-- Socket 0 listens at the path `s`, sockets 1 and 2 are closed, and thread 0 runs. -/
def twoClients : StreamState where
  uds :=
    { sockets := fun i =>
        if i = 0 then some ⟨0, .stream, [0x73], [], .listen, 0, ⟨fun _ => 0, 0, 0⟩⟩
        else if i ≤ 2 then some ⟨i, .stream, [], [], .closed, 0, ⟨fun _ => 0, 0, 0⟩⟩
        else none
      threads := fun tid => if tid = 0 then some ⟨0, .running, none, none⟩ else none
      fds := fun _ _ => default }
  connected := []
  accepted := fun _ => []

theorem start_twoClients : Start twoClients := by
  refine ⟨rfl, rfl, ?_, ?_⟩
  · intro l s hs hlistens
    simp only [twoClients] at hs
    split_ifs at hs
    · cases hs
      decide
    · cases hs
      cases hlistens.2
  · intro tid
    simp only [Uds.rests, twoClients]
    split <;> rfl

/-- The thread sleeps until the first client connects, and returns this connection. -/
theorem delivers_iff_harmless_sleep : ∃ st st',
    Run StreamCall.apply (fun st call => call.Fits st ∧ call.Harmless st) twoClients
      [.accept 0 0, .sleep 0, .connect 1 [0x73] fun _ => 0] st ∧
    (StreamCall.resume 0).apply st = some st' ∧ st'.accepted 0 = [3] ∧
    Delivers twoClients.uds st' := by
  simp only [exists_and_left]
  refine Run.exists_of_eval (Q := fun st =>
    ((StreamCall.resume 0).apply st).map (fun st' => st'.accepted 0) = some [3])
      (by decide +kernel) ?_
  intro st hrun h
  obtain ⟨st', hst', haccepted⟩ := Option.map_eq_some_iff.mp h
  have hfits : (StreamCall.resume 0).Fits st := trivial
  have hharmless : (StreamCall.resume 0).Harmless st := trivial
  refine ⟨st', hst', haccepted, ?_⟩
  exact (delivers_iff_harmless start_twoClients hrun hfits hst').mpr hharmless

/-- **Two clients connect before the accept**, which returns the second connection. The first one is
in no queue any more. -/
theorem accept_drops_connection : Start twoClients ∧ ∃ st,
    Run StreamCall.apply StreamCall.Fits twoClients
      [.connect 1 [0x73] fun _ => 0, .connect 2 [0x73] fun _ => 0, .accept 0 0, .resume 0] st ∧
    serversOf st.connected 0 = [3, 4] ∧ st.accepted 0 = [4] ∧
    (Holds st.uds.sockets 0 fun s => s.Listens ∧ s.ring.contents streamBufferSize = []) ∧
    udsStateOf st.uds.sockets 1 = some .backlogClient ∧ ¬Delivers twoClients.uds st := by
  refine ⟨start_twoClients, Run.exists_of_eval (Q := fun st =>
    serversOf st.connected 0 = [3, 4] ∧ st.accepted 0 = [4] ∧
    (Holds st.uds.sockets 0 fun s => s.Listens ∧ s.ring.contents streamBufferSize = []) ∧
    udsStateOf st.uds.sockets 1 = some .backlogClient) (by decide +kernel) ?_⟩
  rintro st - ⟨hservers, haccepted, hqueue, hclient⟩
  refine ⟨hservers, haccepted, hqueue, hclient, ?_⟩
  intro hdelivers
  obtain ⟨s, hs, hlistens, -⟩ := hqueue
  obtain ⟨queued, -, hlaw⟩ := hdelivers.queue 0 s hs hlistens
  rw [hservers, haccepted] at hlaw
  simp at hlaw

end CarrotOS
