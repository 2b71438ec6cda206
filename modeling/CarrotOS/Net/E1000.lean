import CarrotOS.Lib.Bytes
import CarrotOS.Lib.Run
import CarrotOS.Mem.Fifo

/-!
# The descriptor rings of the network card

The driver shares two rings of 16 descriptors with the card. The card fills receive descriptors from
its head on and leaves out the one that the driver last wrote to `RDT`; `e1000_recv` looks for a
filled descriptor from `rx_tail` on and gives it back. The card sends transmit descriptors from its
head on until the head is `TDT`; `e1000_send` waits for its descriptor to be free and moves `TDT`
behind it.

On the receive side one descriptor always stays with the driver, so the first filled one found is
the oldest. But the scan reads one status byte after another, and frames that arrive meanwhile can
be found ahead of older ones that the scan has passed. On the transmit side nothing keeps a
descriptor back: when all 16 are handed over, `TDT` is the card's head again and the full ring looks
empty.
-/

namespace CarrotOS.E1000

open RingQueue Word Bytes Transition Function List Option RingBuf

variable {frame : List UInt8} {bufsize : ℕ}

/-- `status & 1`: the card is done with the descriptor. -/
def done (status : UInt8) : Bool :=
  status &&& 1 ≠ 0

def bufferSize : ℕ := 2048

/-! ## The receive ring -/

def numRxDesc : ℕ := 16

/-- The descriptors `rx_ring`, the bytes of `rx_buffers` row after row, the driver's `rx_tail`, and
the card's registers `RDH` and `RDT`. -/
structure RxRing where
  length : ℕ → ℕ
  status : ℕ → UInt8
  rxBuffers : ℕ → UInt8
  rxTail : ℕ
  rdh : ℕ
  rdt : ℕ

def e1000InitRx (r : RxRing) : RxRing :=
  { r with
    status := fun i => if i < numRxDesc then 0 else r.status i
    rdh := 0
    rdt := numRxDesc - 1 }

/-- Where the driver is in `e1000_recv`: not in it, before turn `tmp` of the scan, or behind the
scan with the descriptor that it found. -/
inductive RxPhase where
  | idle
  | scan (bufsize tmp : ℕ)
  | found (bufsize rxId : ℕ)
  deriving DecidableEq

/-- One turn of the scan of `e1000_recv`, which reads one status byte. After the last turn the call
returns 0. -/
def e1000RecvLook (r : RxRing) (bufsize tmp : ℕ) : RxPhase :=
  let rxId := (r.rxTail + tmp) % numRxDesc
  if done (r.status rxId) then .found bufsize rxId
  else if tmp + 1 < numRxDesc then .scan bufsize (tmp + 1)
  else .idle

/-- The rest of `e1000_recv`. The bytes stored in the caller's buffer stand beside the ring; their
number is the result. -/
def e1000RecvTake (r : RxRing) (bufsize rxId : ℕ) : RxRing × List UInt8 :=
  ({ r with
      status := update r.status rxId 0
      rdt := rxId
      rxTail := (rxId + 1) % numRxDesc },
    cells (min (r.length rxId) bufsize) fun j => r.rxBuffers (bufferSize * rxId + j))

/-- The card stores a frame at its head. It sets the done bit and any of the other status bits. -/
def RxRing.store (r : RxRing) (frame : List UInt8) (bits : UInt8) : RxRing :=
  { r with
    -- `addr` of descriptor `i` is the row `i` of `rx_buffers`
    rxBuffers := blit r.rxBuffers (bufferSize * r.rdh) frame.length fun j => frame.getD j 0
    length := update r.length r.rdh frame.length
    status := update r.status r.rdh (bits ||| 1)
    rdh := (r.rdh + 1) % numRxDesc }

/-- The card delivers a frame, unless its head is the descriptor that was last written to `RDT`. -/
def RxRing.deliver (r : RxRing) (frame : List UInt8) (bits : UInt8) : Option RxRing :=
  if r.rdh = r.rdt then none else some (r.store frame bits)

/-- The ring and the driver, with what an observer notes: the number of the frame in each
descriptor, the frames delivered, the frames returned with their numbers, whether a call returned 0
while a delivered frame was pending, and whether a frame was delivered in the middle of a scan. -/
structure RxState where
  ring : RxRing
  phase : RxPhase
  number : ℕ → ℕ
  delivered : List (List UInt8)
  returned : List (List UInt8 × ℕ)
  missed : Bool
  torn : Bool

/-- The scan has read a status byte, and goes on. -/
def RxPhase.inScan : RxPhase → Bool
  | .scan _ tmp => 0 < tmp
  | _ => false

/-- What happens to the ring. The card may deliver between any two reads of the scan. -/
inductive RxEvent where
  | deliver (frame : List UInt8) (bits : UInt8)
  | recv (bufsize : ℕ)
  | look
  | take

def RxEvent.apply (st : RxState) : RxEvent → Option RxState
  | .deliver frame bits =>
    (st.ring.deliver frame bits).map fun ring =>
      { st with
        ring
        number := update st.number st.ring.rdh st.delivered.length
        delivered := st.delivered ++ [frame]
        torn := st.torn || st.phase.inScan }
  | .recv bufsize =>
    match st.phase with
    | .idle => some { st with phase := .scan bufsize 0 }
    | _ => none
  | .look =>
    match st.phase with
    | .scan bufsize tmp =>
      match e1000RecvLook st.ring bufsize tmp with
      | .idle =>
        some { st with
          phase := .idle
          missed := st.missed || decide (st.returned.length < st.delivered.length) }
      | phase => some { st with phase }
    | _ => none
  | .take =>
    match st.phase with
    | .found bufsize rxId =>
      let (ring, frame) := e1000RecvTake st.ring bufsize rxId
      if frame = [] then some { st with ring, phase := .idle, missed := true }
      else
        some { st with
          ring
          phase := .idle
          returned := st.returned ++ [(frame, st.number rxId)] }
    | _ => none

/-- Frames of 1 to 2048 bytes, and buffers for all of them. -/
def RxEvent.Fits : RxEvent → Prop
  | .deliver frame _ => 1 ≤ frame.length ∧ frame.length ≤ bufferSize
  | .recv bufsize => bufferSize ≤ bufsize
  | _ => True

instance (e : RxEvent) : Decidable e.Fits := by
  cases e <;> unfold RxEvent.Fits <;> infer_instance

/-- The state after `e1000_init_rx`, with `rx_tail` still 0. -/
def RxState.start (r : RxRing) : RxState :=
  ⟨e1000InitRx { r with rxTail := 0 }, .idle, fun _ => 0, [], [], false, false⟩

/-- The frames returned are the first of the delivered ones, each once, and no call returned 0 while
a delivered frame was pending. -/
def RxState.InOrder (st : RxState) : Prop :=
  st.returned <+: st.delivered.zipIdx ∧ st.missed = false

/-! ### The filled descriptors as a queue -/

def RxRing.frameAt (r : RxRing) (i : ℕ) : List UInt8 :=
  cells (r.length i) fun j => r.rxBuffers (bufferSize * i + j)

/-- The numbered frames from `rx_tail` to the card's head. -/
def RxState.queue (st : RxState) : RingBuf (List UInt8 × ℕ) :=
  ⟨fun i => (st.ring.frameAt i, st.number i), st.ring.rxTail, st.ring.rdh⟩

def RxState.filled (st : RxState) : List ℕ :=
  st.queue.indices numRxDesc

/-- The filled descriptors are those from `rx_tail` to the card's head, the driver keeps the one
before `rx_tail`, and the frames returned and those in the queue are the delivered ones. -/
structure Queued (st : RxState) : Prop where
  valid : st.queue.Valid numRxDesc
  rdt : st.ring.rdt = (st.ring.rxTail + (numRxDesc - 1)) % numRxDesc
  done : ∀ i < numRxDesc, done (st.ring.status i) ↔ i ∈ st.filled
  length_le : ∀ i ∈ st.filled, st.ring.length i ≤ bufferSize
  ne_nil : ∀ frame ∈ st.delivered, frame ≠ []
  history : st.returned ++ st.filled.map st.queue.buf = st.delivered.zipIdx

theorem done_or_one (bits : UInt8) : done (bits ||| 1) := by
  have h : (bits ||| 1) &&& 1 = 1 := by
    apply UInt8.toBitVec_inj.mp
    ext i hi
    simp only [UInt8.toBitVec_and, UInt8.toBitVec_or, BitVec.getElem_and, BitVec.getElem_or]
    cases bits.toBitVec[i] <;> simp
  simp [done, h]

theorem frame_eq_cells (frame : List UInt8) :
    cells frame.length (fun j => frame.getD j 0) = frame := by
  apply ext_getElem
  · simp
  · intro i h₁ h₂
    simp [cells, h₂]

theorem Queued.start (r : RxRing) : Queued (RxState.start r) := by
  have hvalid : (RxState.start r).queue.Valid numRxDesc :=
    ⟨Nat.zero_lt_succ _, Nat.zero_lt_succ _⟩
  have hnil : (RxState.start r).filled = [] := (indices_eq_nil hvalid).mpr rfl
  constructor
  · exact hvalid
  · rfl
  · intro i hi
    rw [hnil]
    simp [RxState.start, e1000InitRx, hi, E1000.done]
  · simp [hnil]
  · simp [RxState.start]
  · rw [hnil]
    rfl

theorem RxRing.frameAt_store_self (r : RxRing) (frame : List UInt8) (bits : UInt8) :
    (r.store frame bits).frameAt r.rdh = frame := by
  simp only [RxRing.frameAt, RxRing.store, update_self]
  refine Eq.trans (map_congr_left fun j hj => ?_) (frame_eq_cells frame)
  have hj := mem_range.mp hj
  rw [blit_of_mem _ _ (by omega) (by omega), Nat.add_sub_cancel_left]

theorem RxRing.frameAt_store_of_ne {r : RxRing} (bits : UInt8) {i : ℕ} (hi : i ≠ r.rdh)
    (hle : r.length i ≤ bufferSize) (hlen : frame.length ≤ bufferSize) :
    (r.store frame bits).frameAt i = r.frameAt i := by
  simp only [RxRing.frameAt, RxRing.store, update_of_ne hi]
  refine map_congr_left fun j hj => ?_
  have hj := mem_range.mp hj
  refine blit_of_not_mem _ _ ?_
  simp only [bufferSize] at *
  omega

section Receive

variable {st st' : RxState}

section

variable (h : Queued st)
include h

theorem Queued.rdh_notMem : st.ring.rdh ∉ st.filled := by
  intro hmem
  obtain ⟨k, hk, heq⟩ := mem_map.mp hmem
  exact cell_ne_head h.valid (mem_range.mp hk) heq

theorem Queued.count_lt (hne : st.ring.rdh ≠ st.ring.rdt) :
    st.queue.count numRxDesc < numRxDesc - 1 := by
  have hlt := RingBuf.count_lt h.valid
  have hfull := RingBuf.full_iff h.valid
  have hrdt := h.rdt
  have ⟨ht, hh⟩ := h.valid
  simp only [RxState.queue, numRxDesc] at *
  omega

theorem Queued.cases : st.filled = [] ∨
    st.filled = st.ring.rxTail :: (st.queue.pop numRxDesc).indices numRxDesc := by
  by_cases h0 : st.queue.count numRxDesc = 0
  · left
    rw [RxState.filled, indices, h0]
    rfl
  · right
    exact indices_pop h.valid h0

theorem Queued.pending : st.returned.length < st.delivered.length ↔ st.filled ≠ [] := by
  have hlen := congrArg List.length h.history
  rw [length_append, length_map, length_zipIdx] at hlen
  rw [← length_pos_iff]
  omega

theorem Queued.inOrder (hmissed : st.missed = false) : st.InOrder :=
  ⟨⟨_, h.history⟩, hmissed⟩

theorem Queued.numbers :
    st.returned.map Prod.snd ++ st.filled.map st.number = range st.delivered.length := by
  have hmap := congrArg (List.map Prod.snd) h.history
  rwa [map_append, List.map_map, zipIdx_map_snd, ← range_eq_range'] at hmap

theorem Queued.turn (phase : RxPhase) (missed : Bool) : Queued { st with phase, missed } :=
  ⟨h.valid, h.rdt, h.done, h.length_le, h.ne_nil, h.history⟩

/-- Any other filled descriptor than `rx_tail` holds a later frame. -/
theorem Queued.number_ne {i : ℕ} (hi : i ∈ st.filled) (hne : i ≠ st.ring.rxTail) :
    st.number i ≠ st.returned.length := by
  have hnumbers := h.numbers
  obtain hnil | hcons := h.cases
  · simp [hnil] at hi
  have hnodup : (st.filled.map st.number).Nodup :=
    (hnumbers ▸ nodup_range).sublist (sublist_append_right _ _)
  intro heq
  have htail : st.number st.ring.rxTail = st.returned.length := by
    have hget := congrArg (fun l => l[st.returned.length]?) hnumbers
    rw [hcons] at hget
    simp only [map_cons, length_map, le_refl, getElem?_append_right, Nat.sub_self,
      getElem?_cons_zero] at hget
    obtain ⟨hlt, hget⟩ := List.getElem?_eq_some_iff.mp hget.symm
    rw [← hget, getElem_range]
  exact hne (inj_on_of_nodup_map hnodup hi (hcons ▸ mem_cons_self) (heq.trans htail.symm))

theorem Queued.deliver {bits : UInt8} (hfits : (RxEvent.deliver frame bits).Fits)
    (hst' : (RxEvent.deliver frame bits).apply st = some st') :
    Queued st' ∧ st'.filled = st.filled ++ [st.ring.rdh] := by
  obtain ⟨ring, hring, hst'⟩ := map_eq_some_iff.mp hst'
  obtain ⟨hne, hring⟩ := ite_none_left_eq_some.mp hring
  cases hring
  have hnot := h.rdh_notMem
  have hfilled : st'.filled = st.filled ++ [st.ring.rdh] := by
    rw [← hst']
    exact indices_push h.valid (h.count_lt hne) (frame, st.delivered.length)
  have hframes : st.filled.map st'.queue.buf = st.filled.map st.queue.buf := by
    refine map_congr_left fun i hi => ?_
    have hi' : i ≠ st.ring.rdh := fun heq => hnot (heq ▸ hi)
    rw [← hst']
    exact congrArg₂ Prod.mk (RxRing.frameAt_store_of_ne bits hi' (h.length_le i hi) hfits.2)
      (update_of_ne hi' _ _)
  refine ⟨?_, hfilled⟩
  constructor
  · rw [← hst']
    exact push_valid h.valid (frame, 0)
  · rw [← hst']
    exact h.rdt
  · intro i hi
    rw [hfilled, ← hst']
    by_cases heq : i = st.ring.rdh
    · subst heq
      simp [RxRing.store, done_or_one]
    · simp [RxRing.store, h.done i hi, heq]
  · intro i hi
    rw [hfilled, mem_append, mem_singleton] at hi
    rw [← hst']
    by_cases heq : i = st.ring.rdh
    · subst heq
      simpa [RxRing.store] using hfits.2
    · simpa [RxRing.store, update_of_ne heq] using h.length_le i (hi.resolve_right heq)
  · rw [← hst']
    intro f hf
    rcases mem_append.mp hf with hf | hf
    · exact h.ne_nil f hf
    · rw [mem_singleton.mp hf]
      exact ne_nil_of_length_pos hfits.1
  · have hnew : st'.queue.buf st.ring.rdh = (frame, st.delivered.length) := by
      rw [← hst']
      exact congrArg₂ Prod.mk (st.ring.frameAt_store_self frame bits) (update_self _ _ _)
    rw [hfilled, map_append, hframes, map_singleton, hnew, ← hst']
    show st.returned ++ _ = (st.delivered ++ [frame]).zipIdx
    rw [zipIdx_append, ← append_assoc, h.history, Nat.zero_add]
    rfl

/-- The call takes the frame at `rx_tail`. -/
theorem Queued.take (hbuf : bufferSize ≤ bufsize)
    (hphase : st.phase = .found bufsize st.ring.rxTail)
    (hmem : st.ring.rxTail ∈ st.filled) (hst' : RxEvent.take.apply st = some st') :
    Queued st' ∧ st'.phase = .idle ∧ st'.missed = st.missed ∧ st'.torn = st.torn := by
  obtain hnil | hcons := h.cases
  · simp [hnil] at hmem
  have hnodup := indices_nodup h.valid
  have hhistory := h.history
  rw [hcons, map_cons] at hhistory
  rw [RxState.filled] at hcons
  rw [hcons] at hnodup
  have hne : st.ring.frameAt st.ring.rxTail ≠ [] := by
    have hin : st.queue.buf st.ring.rxTail ∈ st.delivered.zipIdx :=
      hhistory ▸ mem_append_right _ mem_cons_self
    exact h.ne_nil _ (fst_mem_of_mem_zipIdx hin)
  have hle := (h.length_le _ hmem).trans hbuf
  simp only [RxEvent.apply, hphase, e1000RecvTake, Nat.min_eq_left hle] at hst'
  rw [if_neg (show ¬cells _ _ = [] from hne)] at hst'
  cases hst'
  refine ⟨?_, rfl, rfl, rfl⟩
  constructor
  · exact pop_valid h.valid
  · have := h.valid.1
    simp only [RxState.queue, numRxDesc] at *
    omega
  · intro i hi
    show E1000.done (update st.ring.status st.ring.rxTail 0 i) ↔
      i ∈ (st.queue.pop numRxDesc).indices numRxDesc
    by_cases heq : i = st.ring.rxTail
    · subst heq
      simp [E1000.done, (nodup_cons.mp hnodup).1]
    · rw [update_of_ne heq, h.done i hi, RxState.filled, hcons]
      simp [heq]
  · intro i hi
    refine h.length_le i ?_
    rw [RxState.filled, hcons]
    exact mem_cons_of_mem _ hi
  · exact h.ne_nil
  · rw [append_assoc]
    exact hhistory

end

/-! ### Scans and deliveries -/

/-- What holds of a call as long as no delivery fell into a scan. -/
def RxState.Steady (st : RxState) : Prop :=
  match st.phase with
  | .idle => True
  | .scan bufsize tmp => bufferSize ≤ bufsize ∧ tmp < numRxDesc ∧ (0 < tmp → st.filled = [])
  | .found bufsize rxId => bufferSize ≤ bufsize ∧ rxId = st.ring.rxTail ∧ rxId ∈ st.filled

/-- The call can no longer end well: a frame is pending that the scan has passed, or the scan has
found another frame than the first. -/
def RxState.Doomed (st : RxState) : Prop :=
  match st.phase with
  | .idle => False
  | .scan _ tmp => 0 < tmp ∧ tmp < numRxDesc ∧ st.filled ≠ []
  | .found _ rxId => rxId ∈ st.filled ∧ rxId ≠ st.ring.rxTail

/-- A frame was returned out of its turn, or a call missed one. Nothing repairs this. -/
def RxState.Broken (st : RxState) : Prop :=
  st.missed = true ∨ st.returned.map Prod.snd ≠ range st.returned.length

inductive Course (st : RxState) : Prop
  | steady : Queued st → st.torn = false → st.missed = false → st.Steady → Course st
  | doomed : Queued st → st.torn = true → st.Doomed → Course st
  | broken : st.torn = true → st.Broken → Course st

theorem RxState.Broken.not_inOrder (h : st.Broken) : ¬st.InOrder := by
  rintro ⟨horder, hmissed⟩
  rcases h with h | h
  · simp [hmissed] at h
  · have htake := congrArg (List.map Prod.snd) (prefix_iff_eq_take.mp horder)
    rw [map_take, zipIdx_map_snd, ← range_eq_range', take_range] at htake
    have hlen := horder.length_le
    rw [length_zipIdx] at hlen
    exact h (htake.trans (congrArg range (Nat.min_eq_left hlen)))

theorem range_of_snoc {numbers : List ℕ} {n : ℕ}
    (h : numbers ++ [n] = range (numbers.length + 1)) :
    numbers = range numbers.length ∧ n = numbers.length := by
  rw [range_succ] at h
  obtain ⟨hnumbers, hn⟩ := append_inj' h rfl
  exact ⟨hnumbers, (cons.inj hn).1⟩

/-- A frame taken out of its turn, or after one that was. -/
theorem broken_of_take {rxId : ℕ} (hphase : st.phase = .found bufsize rxId)
    (h : st.number rxId ≠ st.returned.length ∨ st.Broken)
    (hst' : RxEvent.take.apply st = some st') : st'.Broken ∧ st'.torn = st.torn := by
  simp only [RxEvent.apply, hphase] at hst'
  split_ifs at hst'
  · cases hst'
    exact ⟨.inl rfl, rfl⟩
  · cases hst'
    refine ⟨?_, rfl⟩
    rcases h with h | h | h
    · right
      intro heq
      rw [map_append, length_append, ← length_map Prod.snd] at heq
      exact h (by simpa using (range_of_snoc heq).2)
    · exact .inl h
    · right
      intro heq
      rw [map_append, length_append, ← length_map Prod.snd] at heq
      exact h (by simpa using (range_of_snoc heq).1)

theorem Course.deliver {bits : UInt8} (h : Course st) (hfits : (RxEvent.deliver frame bits).Fits)
    (hst' : (RxEvent.deliver frame bits).apply st = some st') : Course st' := by
  have heq : st'.phase = st.phase ∧ st'.missed = st.missed ∧ st'.returned = st.returned ∧
      st'.ring.rxTail = st.ring.rxTail ∧ st'.torn = (st.torn || st.phase.inScan) := by
    obtain ⟨ring, hring, rfl⟩ := map_eq_some_iff.mp hst'
    obtain ⟨-, hring⟩ := ite_none_left_eq_some.mp hring
    cases hring
    exact ⟨rfl, rfl, rfl, rfl, rfl⟩
  obtain ⟨hphase, hmissed, hreturned, htail, htorn⟩ := heq
  cases h with
  | steady hq hfalse hnone hsteady =>
    obtain ⟨hq', hfilled⟩ := hq.deliver hfits hst'
    rw [hfalse, Bool.false_or] at htorn
    unfold RxState.Steady at hsteady
    cases hp : st.phase with
    | idle =>
      rw [hp] at hphase htorn
      exact .steady hq' htorn (hmissed.trans hnone) (by simp [RxState.Steady, hphase])
    | scan bufsize tmp =>
      rw [hp] at hphase htorn hsteady
      obtain ⟨hbuf, hlt, hnil⟩ := hsteady
      by_cases h0 : 0 < tmp
      · refine .doomed hq' (htorn.trans (decide_eq_true h0)) ?_
        simp [RxState.Doomed, hphase, h0, hlt, hfilled]
      · refine .steady hq' (htorn.trans (decide_eq_false h0)) (hmissed.trans hnone) ?_
        simp [RxState.Steady, hphase, hbuf, hlt, h0]
    | found bufsize rxId =>
      rw [hp] at hphase htorn hsteady
      obtain ⟨hbuf, hid, hmem⟩ := hsteady
      refine .steady hq' htorn (hmissed.trans hnone) ?_
      simp [RxState.Steady, hphase, hbuf, hid ▸ hmem, hid, htail, hfilled]
  | doomed hq htrue hdoomed =>
    obtain ⟨hq', hfilled⟩ := hq.deliver hfits hst'
    refine .doomed hq' (by simp [htorn, htrue]) ?_
    unfold RxState.Doomed at hdoomed ⊢
    rw [hphase, hfilled, htail]
    cases hp : st.phase with
    | idle => simp [hp] at hdoomed
    | scan bufsize tmp =>
      rw [hp] at hdoomed
      simp [hdoomed.1, hdoomed.2.1]
    | found bufsize rxId =>
      rw [hp] at hdoomed
      simp [hdoomed.1, hdoomed.2]
  | broken htrue hbroken =>
    refine .broken (by simp [htorn, htrue]) ?_
    rwa [RxState.Broken, hmissed, hreturned]

/-- A turn of the scan, in the three ways it can go. -/
theorem look_cases {tmp : ℕ} (hphase : st.phase = .scan bufsize tmp)
    (hst' : RxEvent.look.apply st = some st') :
    let rxId := (st.ring.rxTail + tmp) % numRxDesc
    done (st.ring.status rxId) ∧ st' = { st with phase := .found bufsize rxId } ∨
    ¬done (st.ring.status rxId) ∧ tmp + 1 < numRxDesc ∧
      st' = { st with phase := .scan bufsize (tmp + 1) } ∨
    ¬done (st.ring.status rxId) ∧ ¬tmp + 1 < numRxDesc ∧ st' = { st with
      phase := .idle
      missed := st.missed || decide (st.returned.length < st.delivered.length) } := by
  simp only [RxEvent.apply, hphase, e1000RecvLook] at hst' ⊢
  by_cases hdone : done (st.ring.status ((st.ring.rxTail + tmp) % numRxDesc))
  · rw [if_pos hdone] at hst'
    exact .inl ⟨hdone, (some.inj hst').symm⟩
  · rw [if_neg hdone] at hst'
    by_cases hlt : tmp + 1 < numRxDesc
    · rw [if_pos hlt] at hst'
      exact .inr (.inl ⟨hdone, hlt, (some.inj hst').symm⟩)
    · rw [if_neg hlt] at hst'
      exact .inr (.inr ⟨hdone, hlt, (some.inj hst').symm⟩)

theorem Course.look (h : Course st) (hst' : RxEvent.look.apply st = some st') : Course st' := by
  cases hp : st.phase with
  | idle => simp [RxEvent.apply, hp] at hst'
  | found bufsize rxId => simp [RxEvent.apply, hp] at hst'
  | scan bufsize tmp =>
    have hmod : (st.ring.rxTail + tmp) % numRxDesc < numRxDesc := Nat.mod_lt _ (Nat.zero_lt_succ _)
    cases h with
    | steady hq hfalse hnone hsteady =>
      have htail : st.ring.rxTail % numRxDesc = st.ring.rxTail := Nat.mod_eq_of_lt hq.valid.1
      simp only [RxState.Steady, hp] at hsteady
      obtain ⟨hbuf, hlt, hnil⟩ := hsteady
      have hmem := hq.done _ hmod
      -- only the first turn can find a descriptor, and after it nothing is filled
      have hnil' (hdone : ¬done (st.ring.status ((st.ring.rxTail + tmp) % numRxDesc))) :
          st.filled = [] := by
        rcases Nat.eq_zero_or_pos tmp with rfl | h0
        · rw [hmem, Nat.add_zero, htail] at hdone
          exact hq.cases.resolve_right fun hcons => hdone (hcons ▸ mem_cons_self)
        · exact hnil h0
      rcases look_cases hp hst' with ⟨hdone, rfl⟩ | ⟨hdone, hlt, rfl⟩ | ⟨hdone, hlt, rfl⟩
      · rcases Nat.eq_zero_or_pos tmp with rfl | h0
        · rw [hmem, Nat.add_zero, htail] at hdone
          refine .steady (hq.turn _ _) hfalse hnone ?_
          exact ⟨hbuf, htail, htail.symm ▸ hdone⟩
        · rw [hmem, hnil h0] at hdone
          cases hdone
      · refine .steady (hq.turn _ _) hfalse hnone ?_
        exact ⟨hbuf, hlt, fun _ => hnil' hdone⟩
      · refine .steady (hq.turn _ _) hfalse ?_ trivial
        have hpending : ¬st.returned.length < st.delivered.length := by
          simp [hq.pending, hnil' hdone]
        simp [hnone, hpending]
    | doomed hq htrue hdoomed =>
      simp only [RxState.Doomed, hp] at hdoomed
      obtain ⟨h0, hlt, hne⟩ := hdoomed
      rcases look_cases hp hst' with ⟨hdone, rfl⟩ | ⟨-, hlt, rfl⟩ | ⟨-, -, rfl⟩
      · refine .doomed (hq.turn _ _) htrue
          ⟨(hq.done _ hmod).mp hdone, ?_⟩
        have := hq.valid.1
        simp only [RxState.queue, numRxDesc] at *
        omega
      · exact .doomed (hq.turn _ _) htrue ⟨Nat.succ_pos _, hlt, hne⟩
      · exact .broken htrue (.inl (by simp [hq.pending.mpr hne]))
    | broken htrue hbroken =>
      rcases look_cases hp hst' with ⟨-, rfl⟩ | ⟨-, -, rfl⟩ | ⟨-, -, rfl⟩
      · exact .broken htrue hbroken
      · exact .broken htrue hbroken
      · exact .broken htrue (hbroken.imp (by simp +contextual) id)

theorem Course.recv (h : Course st) (hbuf : bufferSize ≤ bufsize)
    (hst' : (RxEvent.recv bufsize).apply st = some st') : Course st' := by
  cases hp : st.phase with
  | scan bufsize tmp => simp [RxEvent.apply, hp] at hst'
  | found bufsize rxId => simp [RxEvent.apply, hp] at hst'
  | idle =>
    simp only [RxEvent.apply, hp] at hst'
    cases hst'
    cases h with
    | steady hq hfalse hnone _ =>
      refine .steady (hq.turn _ _) hfalse hnone ?_
      exact ⟨hbuf, Nat.zero_lt_succ _, fun h0 => absurd h0 (lt_irrefl 0)⟩
    | doomed _ _ hdoomed => simp [RxState.Doomed, hp] at hdoomed
    | broken htrue hbroken => exact .broken htrue hbroken

theorem Course.take (h : Course st) (hst' : RxEvent.take.apply st = some st') : Course st' := by
  cases hp : st.phase with
  | idle => simp [RxEvent.apply, hp] at hst'
  | scan bufsize tmp => simp [RxEvent.apply, hp] at hst'
  | found bufsize rxId =>
    cases h with
    | steady hq hfalse hnone hsteady =>
      simp only [RxState.Steady, hp] at hsteady
      obtain ⟨hbuf, rfl, hmem⟩ := hsteady
      obtain ⟨hq', hphase, hmissed, htorn⟩ := hq.take hbuf hp hmem hst'
      exact .steady hq' (htorn.trans hfalse) (hmissed.trans hnone)
        (by simp [RxState.Steady, hphase])
    | doomed hq htrue hdoomed =>
      simp only [RxState.Doomed, hp] at hdoomed
      obtain ⟨hbroken, htorn⟩ := broken_of_take hp (.inl (hq.number_ne hdoomed.1 hdoomed.2)) hst'
      exact .broken (htorn.trans htrue) hbroken
    | broken htrue hbroken =>
      obtain ⟨hbroken, htorn⟩ := broken_of_take hp (.inr hbroken) hst'
      exact .broken (htorn.trans htrue) hbroken

end Receive

/-- **The frames come back in order exactly when no frame is delivered in the middle of a scan**: in
every run, at every moment at which no call is under way, the frames returned are the first of the
delivered ones and no call returned 0 with a frame pending, if and only if no delivery fell between
two reads of status bytes by one scan. -/
theorem inOrder_iff_not_torn (r : RxRing) {events : List RxEvent} {st : RxState}
    (hrun : Run RxEvent.apply (fun _ e => e.Fits) (RxState.start r) events st)
    (hidle : st.phase = .idle) : st.InOrder ↔ st.torn = false := by
  have h : Course st := by
    refine hrun.invariant Course ?_ (.steady (.start r) rfl rfl trivial)
    intro st e st' h hfits hst'
    cases e with
    | deliver frame bits => exact h.deliver hfits hst'
    | recv bufsize => exact h.recv hfits hst'
    | look => exact h.look hst'
    | take => exact h.take hst'
  cases h with
  | steady hq hfalse hnone _ => simp [hfalse, hq.inOrder hnone]
  | doomed _ _ hdoomed => simp [RxState.Doomed, hidle] at hdoomed
  | broken htrue hbroken => simp [htrue, hbroken.not_inOrder]

def zeroRx : RxRing :=
  ⟨fun _ => 0, fun _ => 0, fun _ => 0, 0, 0, 0⟩

/-- A call takes the first of two frames, one more arrives while it has the descriptor and before
the next call looks, and that call takes the second. -/
theorem inOrder_iff_not_torn_second : ∃ st,
    Run RxEvent.apply (fun _ e => e.Fits) (RxState.start zeroRx)
      [.deliver [1, 2] 0, .deliver [3] 2, .recv 2048, .look, .deliver [4] 0, .take,
        .recv 2048, .deliver [5] 0, .look, .take] st ∧
    st.returned = [([1, 2], 0), ([3], 1)] ∧ st.InOrder := by
  refine Run.exists_of_eval (Q := fun st => st.returned = [([1, 2], 0), ([3], 1)] ∧
    st.torn = false ∧ st.phase = .idle) (by decide) ?_
  rintro st hrun ⟨hreturned, htorn, hidle⟩
  exact ⟨hreturned, (inOrder_iff_not_torn zeroRx hrun hidle).mpr htorn⟩

/-- **A frame overtakes another**: the scan finds the descriptor at `rx_tail` empty, the card fills
it and the next one, and the scan takes the second frame. -/
theorem second_before_first : ∃ st,
    Run RxEvent.apply (fun _ e => e.Fits) (RxState.start zeroRx)
      [.recv 2048, .look, .deliver [1] 0, .deliver [2] 0, .look, .take] st ∧
    st.delivered = [[1], [2]] ∧ st.returned = [([2], 1)] ∧ ¬st.InOrder := by
  refine Run.exists_of_eval (Q := fun st => st.delivered = [[1], [2]] ∧
    st.returned = [([2], 1)]) (by decide) ?_
  rintro st - ⟨hdelivered, hreturned⟩
  refine ⟨hdelivered, hreturned, fun hinOrder => ?_⟩
  have horder := hinOrder.1
  rw [hdelivered, hreturned] at horder
  exact absurd horder (by decide)

/-! ## The transmit ring -/

def numTxDesc : ℕ := 16

/-- The descriptors `tx_ring`, the bytes from `tx_buffers` on row after row, the driver's `tx_tail`,
and the card's registers `TDH` and `TDT`. -/
structure TxRing where
  length : ℕ → ℕ
  cmd : ℕ → ℕ
  status : ℕ → UInt8
  txBuffers : ℕ → UInt8
  txTail : ℕ
  tdh : ℕ
  tdt : ℕ

def e1000InitTx (r : TxRing) : TxRing :=
  { r with
    status := fun i => if i < numTxDesc then 1 else r.status i
    tdh := 0
    tdt := 0 }

/-- `e1000_send` of the first `len` bytes of `data`. While the descriptor is not free the call
waits. -/
def e1000Send (r : TxRing) (data : ℕ → UInt8) (len : ℕ) : Option TxRing :=
  if done (r.status r.txTail) then
    let txTail := (r.txTail + 1) % numTxDesc
    some { r with
      txBuffers := blit r.txBuffers (bufferSize * r.txTail) len data
      length := update r.length r.txTail (u16 len)
      cmd := update r.cmd r.txTail (2 ^ 0 + 2 ^ 3)
      status := update r.status r.txTail 0
      txTail
      tdt := txTail }
  else none

/-- The card sends the frame at its head, unless the head is `TDT`. -/
def TxRing.transmit (r : TxRing) : Option TxRing :=
  if r.tdh = r.tdt then none
  else
    some { r with
      status := update r.status r.tdh (r.status r.tdh ||| 1)
      tdh := (r.tdh + 1) % numTxDesc }

/-- The ring with the number of descriptors handed over and transmitted so far. -/
structure TxState where
  ring : TxRing
  handed : ℕ
  transmitted : ℕ

inductive TxEvent where
  | send (data : ℕ → UInt8) (len : ℕ)
  | transmit

def TxEvent.apply (st : TxState) : TxEvent → Option TxState
  | .send data len =>
    (e1000Send st.ring data len).map fun ring => { st with ring, handed := st.handed + 1 }
  | .transmit =>
    st.ring.transmit.map fun ring => { st with ring, transmitted := st.transmitted + 1 }

/-- The state after `e1000_init_tx`, with `tx_tail` still 0. -/
def TxState.start (r : TxRing) : TxState :=
  ⟨e1000InitTx { r with txTail := 0 }, 0, 0⟩

/-- The ring looks empty to the card only when it is: `TDT` differs from the head, unless
everything handed over has been transmitted. -/
def TxState.Told (st : TxState) : Prop :=
  st.ring.tdt ≠ st.ring.tdh ∨ st.transmitted = st.handed

/-- What holds in every run: the indices are the two counts round the ring, and a descriptor is busy
exactly when its number is between them. -/
structure Tracks (st : TxState) : Prop where
  txTail : st.ring.txTail = st.handed % numTxDesc
  tdt : st.ring.tdt = st.handed % numTxDesc
  tdh : st.ring.tdh = st.transmitted % numTxDesc
  le : st.transmitted ≤ st.handed
  handed_le : st.handed ≤ st.transmitted + numTxDesc
  done : ∀ i < numTxDesc, done (st.ring.status i) ↔
    ∀ k, st.transmitted ≤ k → k < st.handed → k % numTxDesc ≠ i

theorem Tracks.start (r : TxRing) : Tracks (TxState.start r) where
  txTail := rfl
  tdt := rfl
  tdh := rfl
  le := le_rfl
  handed_le := Nat.zero_le _
  done := by
    intro i hi
    simp only [TxState.start, e1000InitTx, if_pos hi]
    simp [E1000.done]

section Transmit

variable {st st' : TxState}

theorem Tracks.done_txTail_iff (h : Tracks st) :
    E1000.done (st.ring.status st.ring.txTail) ↔ st.handed < st.transmitted + numTxDesc := by
  have hlt : st.handed % numTxDesc < numTxDesc := Nat.mod_lt _ (Nat.zero_lt_succ _)
  rw [h.txTail, h.done _ hlt]
  simp only [numTxDesc] at *
  constructor
  · intro hfree
    by_contra hge
    -- the descriptor was last handed over sixteen frames ago
    exact hfree (st.handed - 16) (by omega) (by omega) (by omega)
  · intro hroom k hk hk'
    omega

theorem Tracks.send (h : Tracks st) {data : ℕ → UInt8} {len : ℕ}
    (hst' : (TxEvent.send data len).apply st = some st') : Tracks st' := by
  obtain ⟨ring, hring, rfl⟩ := map_eq_some_iff.mp hst'
  obtain ⟨hdone, hring⟩ := ite_none_right_eq_some.mp hring
  cases hring
  have hroom := h.done_txTail_iff.mp hdone
  have htail := h.txTail
  have hle := h.le
  constructor
  · show (st.ring.txTail + 1) % numTxDesc = _
    rw [htail, Nat.mod_add_mod]
  · show (st.ring.txTail + 1) % numTxDesc = _
    rw [htail, Nat.mod_add_mod]
  · exact h.tdh
  · exact Nat.le_succ_of_le hle
  · exact hroom
  · intro i hi
    show E1000.done (update st.ring.status st.ring.txTail 0 i) ↔
      ∀ k, st.transmitted ≤ k → k < st.handed + 1 → k % numTxDesc ≠ i
    by_cases heq : i = st.ring.txTail
    · subst heq
      rw [update_self]
      constructor
      · intro hfalse
        cases hfalse
      · intro hall
        exact absurd htail.symm (hall st.handed hle (Nat.lt_succ_self _))
    · rw [update_of_ne heq, h.done i hi]
      constructor
      · intro hall k hk hk'
        rcases Nat.lt_succ_iff_lt_or_eq.mp hk' with hk' | rfl
        · exact hall k hk hk'
        · exact fun hik => heq (hik.symm.trans htail.symm)
      · intro hall k hk hk'
        exact hall k hk (Nat.lt_succ_of_lt hk')

theorem Tracks.transmit (h : Tracks st) (hst' : TxEvent.transmit.apply st = some st') :
    Tracks st' := by
  obtain ⟨ring, hring, rfl⟩ := map_eq_some_iff.mp hst'
  unfold TxRing.transmit at hring
  split_ifs at hring with hne
  cases hring
  have htdh := h.tdh
  have hlt : st.transmitted < st.handed := by
    refine lt_of_le_of_ne h.le fun heq => hne ?_
    rw [htdh, h.tdt, heq]
  have hle := h.handed_le
  constructor
  · exact h.txTail
  · exact h.tdt
  · show (st.ring.tdh + 1) % numTxDesc = _
    rw [htdh, Nat.mod_add_mod]
  · exact hlt
  · show st.handed ≤ st.transmitted + 1 + numTxDesc
    omega
  · intro i hi
    show E1000.done (update st.ring.status st.ring.tdh (st.ring.status st.ring.tdh ||| 1) i)
      ↔ ∀ k, st.transmitted + 1 ≤ k → k < st.handed → k % numTxDesc ≠ i
    by_cases heq : i = st.ring.tdh
    · subst heq
      rw [update_self]
      simp only [done_or_one, true_iff]
      intro k hk hk'
      simp only [numTxDesc] at *
      omega
    · rw [update_of_ne heq, h.done i hi]
      constructor
      · intro hall k hk hk'
        exact hall k (by omega) hk'
      · intro hall k hk hk'
        rcases Nat.eq_or_lt_of_le hk with rfl | hk
        · exact fun hik => heq (hik.symm.trans htdh.symm)
        · exact hall k hk hk'

theorem Tracks.of_run {r : TxRing} {events : List TxEvent}
    (hrun : Run TxEvent.apply (fun _ _ => True) (TxState.start r) events st) : Tracks st := by
  refine hrun.invariant Tracks ?_ (.start r)
  intro st e st' h _ hst'
  cases e with
  | send data len => exact h.send hst'
  | transmit => exact h.transmit hst'

end Transmit

/-- **When a full ring is told from an empty one**: a send that gets past its wait leaves `TDT`
different from the card's head, or nothing to transmit, exactly when fewer than 15 descriptors were
outstanding before it. -/
theorem tdt_ne_tdh_iff (r : TxRing) {events : List TxEvent} {st st' : TxState}
    {data : ℕ → UInt8} {len : ℕ}
    (hrun : Run TxEvent.apply (fun _ _ => True) (TxState.start r) events st)
    (hsend : (TxEvent.send data len).apply st = some st') :
    st'.Told ↔ st.handed - st.transmitted < numTxDesc - 1 := by
  have h := Tracks.of_run hrun
  have h' := h.send hsend
  have hle := h.le
  have hle' := h'.handed_le
  obtain ⟨hhanded, htransmitted⟩ :
      st'.handed = st.handed + 1 ∧ st'.transmitted = st.transmitted := by
    obtain ⟨ring, -, rfl⟩ := map_eq_some_iff.mp hsend
    exact ⟨rfl, rfl⟩
  rw [TxState.Told, h'.tdt, h'.tdh]
  simp only [numTxDesc] at *
  omega

def zeroTx : TxRing :=
  ⟨fun _ => 0, fun _ => 0, fun _ => 0, fun _ => 0, 0, 0, 0⟩

/-- Two frames are handed over and one is transmitted; the third one is told. -/
theorem tdt_ne_tdh_iff_third : ∃ st st',
    Run TxEvent.apply (fun _ _ => True) (TxState.start zeroTx)
      [.send (fun _ => 0) 60, .send (fun _ => 1) 60, .transmit] st ∧
    (TxEvent.send (fun _ => 2) 60).apply st = some st' ∧ st'.Told := by
  simp only [exists_and_left]
  refine Run.exists_of_eval (Q := fun st => st.handed = 2 ∧ st.transmitted = 1 ∧
    ((TxEvent.send (fun _ => 2) 60).apply st).isSome) (by decide) ?_
  rintro st hrun ⟨hhanded, htransmitted, hsome⟩
  obtain ⟨st', hst'⟩ := isSome_iff_exists.mp hsome
  refine ⟨st', hst', (tdt_ne_tdh_iff zeroTx hrun hst').mpr ?_⟩
  rw [hhanded, htransmitted]
  decide

/-- **Sixteen frames at once**: after the last one `TDT` is the card's head with nothing
transmitted. -/
theorem full_ring_looks_empty : ∃ st,
    Run TxEvent.apply (fun _ _ => True) (TxState.start zeroTx)
      (replicate 16 (.send (fun _ => 0) 60)) st ∧
    st.handed = 16 ∧ st.transmitted = 0 ∧ st.ring.tdt = st.ring.tdh ∧ ¬st.Told := by
  refine Run.exists_of_eval (Q := fun st => st.handed = 16 ∧ st.transmitted = 0 ∧
    st.ring.tdt = st.ring.tdh) (by decide) ?_
  rintro st - ⟨hhanded, htransmitted, htdt⟩
  refine ⟨hhanded, htransmitted, htdt, ?_⟩
  rintro (hne | heq)
  · exact hne htdt
  · rw [hhanded, htransmitted] at heq
    cases heq

end CarrotOS.E1000
