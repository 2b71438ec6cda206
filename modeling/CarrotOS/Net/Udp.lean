import CarrotOS.Lib.Bytes
import CarrotOS.Mem.Blocks
import CarrotOS.Net.Datagram
import CarrotOS.Net.Socket

/-!
# The datagram queue of a UDP socket

`udp_socket_append` stores a datagram as one slot of `UDP_MTU` bytes in a ring behind the tuple and
its length in a table of records behind the ring; `read_socket_udp` takes one slot out.

The two do not agree. The writer stores the length under the slot of the datagram, the slot of
`head` before the write; the readers look under `head` too, which by then is the slot behind the
last datagram. And the writer's ring has 20 slots, the readers' 14. A read is right as long as the
record it looks at happens to have the length of the first datagram, and the readers have not
turned.
-/

namespace CarrotOS

open RingQueue Bytes Transition Function List Option

/-! ## The code -/

def udpMtu : ℕ := 1472

def udpAdditionalSocketBlockCount : ℕ := 3

def udpWriterLen : ℕ :=
  divCeil ((socketBlockCount + udpAdditionalSocketBlockCount - 1) * 4096 - sizeofNetTuple) udpMtu *
    udpMtu

/-- The `buf_len` of the readers. -/
def udpReaderLen : ℕ :=
  divCeil (socketBlockCount * 4096 - sizeofNetTuple) udpMtu * udpMtu

/-- Where `len_records` is, from the address of the tuple on. -/
def lenRecordsAt : ℕ :=
  (socketBlockCount + udpAdditionalSocketBlockCount - 1) * 4096

theorem udpWriterLen_eq : udpWriterLen = 20 * 1472 := by
  decide

theorem udpReaderLen_eq : udpReaderLen = 14 * 1472 := by
  decide

/-- The fields of a tuple that its datagram queue uses, and the memory from its address on. -/
structure UdpSocket where
  mem : ℕ → UInt8
  head : ℕ
  tail : ℕ
  state : NetState
  receiveBlocking : Bool

namespace UdpSocket

def ring (s : UdpSocket) : RingBuf UInt8 :=
  ⟨fun i => s.mem (sizeofNetTuple + i), s.tail, s.head⟩

def lenRecord (s : UdpSocket) (i : ℕ) : ℕ :=
  leNat 8 fun b => s.mem (lenRecordsAt + 8 * i + b)

/-- The memory with a new ring behind the tuple. -/
def setRing (s : UdpSocket) (q : RingBuf UInt8) : UdpSocket :=
  { s with
    mem := fun a => if a < sizeofNetTuple then s.mem a else q.buf (a - sizeofNetTuple)
    head := q.head }

/-- The queue of `udp_socket_append`: all `UDP_MTU` bytes from `payload` on are copied, whatever the
length. -/
def udpSocketAppend (s : UdpSocket) (payload : ℕ → UInt8) (payloadLen : ℕ) : UdpSocket :=
  let len := if payloadLen > udpMtu then udpMtu else payloadLen
  let s := { s with mem := blit s.mem (lenRecordsAt + 8 * (s.head / udpMtu)) 8 (leByte len) }
  s.setRing (fifoWrite8 udpWriterLen s.ring udpMtu payload).ring

/-- The `len` of the readers: the record of the slot of `head`. -/
def recordedLen (s : UdpSocket) : ℕ :=
  s.lenRecord (s.head / udpMtu)

end UdpSocket

/-- UDP sockets: a datagram takes a whole slot, whatever its length. -/
def udpKind : DatagramKind UdpSocket where
  mtu := udpMtu
  writerLen := udpWriterLen
  readerLen := udpReaderLen
  queue := UdpSocket.ring
  setTail s tail := { s with tail }
  append := UdpSocket.udpSocketAppend
  taken _ := udpMtu
  recordedLen := UdpSocket.recordedLen
  receiveBlocking := UdpSocket.receiveBlocking
  closeWait s := s.state = .closeWait

abbrev UdpState := DatagramState UdpSocket

/-- The reader stands at the slot of the datagram that is next; the writer puts the `k`-th datagram
into the slot `k`, round its ring. -/
def ReaderInStep (st : UdpState) : Prop :=
  st.socket.tail = udpMtu * (st.reads.length % (udpWriterLen / udpMtu))

/-- A slot is queued: the length that the read uses gives the same count as the length of the first
queued datagram, and the readers' ring does not turn behind this slot. -/
def SlotRight (st : UdpState) (len payloadLen : ℕ) : Prop :=
  (∀ d, st.appended[st.reads.length]? = some d → min len payloadLen = min payloadLen d.len) ∧
    st.socket.tail / udpMtu + 1 < udpReaderLen / udpMtu

instance decidableSlotRight (st : UdpState) (len payloadLen : ℕ) :
    Decidable (SlotRight st len payloadLen) :=
  inferInstanceAs (Decidable ((∀ d ∈ st.appended[st.reads.length]?, _) ∧ _))

/-! ## One slot -/

/-- What holds as long as the readers have not turned. The records are not mentioned: they are
whatever earlier writes left there. -/
structure SlotQueue (st : UdpState) : Prop where
  le : st.reads.length ≤ st.appended.length
  room : st.appended.length ≤ st.reads.length + 19
  low : st.reads.length < 14
  head : st.socket.head = 1472 * (st.appended.length % 20)
  tail : st.socket.tail = 1472 * st.reads.length
  slots : ∀ m d, st.reads.length ≤ m → m < 14 → st.appended[m]? = some d →
    ∀ j < 1472, st.socket.mem (104 + (1472 * m + j)) = d.data j
  lens : ∀ d ∈ st.appended, d.len ≤ udpMtu
  right : st.ReadsRight

namespace SlotQueue

variable {st : UdpState}

theorem of_start (h : udpKind.Start st) : SlotQueue st where
  le := by simp [h.reads]
  room := by simp [h.appended]
  low := by simp [h.reads]
  head := (h.head : st.socket.head = 0).trans (by simp [h.appended])
  tail := (h.tail : st.socket.tail = 0).trans (by simp [h.reads])
  slots m d _ _ hd := by simp [h.appended] at hd
  lens d hd := by simp [h.appended] at hd
  right k r hr := by simp [h.reads] at hr

theorem tail_eq_head_iff (h : SlotQueue st) :
    st.socket.tail = st.socket.head ↔ st.reads.length = st.appended.length := by
  have := h.room
  have := h.low
  rw [h.tail, h.head]
  omega

theorem exists_first (h : SlotQueue st) (hne : st.socket.tail ≠ st.socket.head) :
    ∃ d, st.appended[st.reads.length]? = some d := by
  have hlt := Nat.lt_of_le_of_ne h.le (mt h.tail_eq_head_iff.mpr hne)
  exact ⟨_, getElem?_eq_getElem hlt⟩

theorem readChunk_empty {s : UdpSocket} (he : s.tail = s.head) :
    (udpKind.readChunk s).outSize = 0 := by
  have hr : udpKind.readChunk s = ⟨s.ring, fun _ => 0, 0⟩ := if_pos he
  rw [hr]

/-- A read takes the slot at `tail`, which is the first queued datagram. -/
theorem readChunk_slot (h : SlotQueue st) (hne : st.socket.tail ≠ st.socket.head) :
    (udpKind.readChunk st.socket).outSize = 1472 ∧
    (udpKind.readChunk st.socket).ring.tail = 1472 * (st.reads.length + 1) % 20608 ∧
    ∀ d, st.appended[st.reads.length]? = some d →
      ∀ j < 1472, (udpKind.readChunk st.socket).out j = d.data j := by
  have hlow := h.low
  have hhead := h.head
  have htail := h.tail
  have hlen := udpReaderLen_eq
  have hmtu : udpMtu = 1472 := rfl
  have hread := fifoReadLoop_eq (q := st.socket.ring) (k := udpMtu)
    (show udpReaderLen < 2 ^ 64 by decide) 0 (fun _ => 0) (by simp only [UdpSocket.ring]; omega)
    le_rfl (by intro j hj; rw [hlen]; simp only [UdpSocket.ring]; omega) fun h =>
      absurd h (Nat.lt_irrefl _)
  rw [show udpKind.readChunk st.socket = _ from hread]
  refine ⟨rfl, ?_, fun d hd j hj => (if_neg (by omega)).trans ?_⟩
  · simp only [UdpSocket.ring, hlen]
    omega
  · rw [Nat.sub_zero, Nat.mod_eq_of_lt (by simp only [UdpSocket.ring]; omega),
      UdpSocket.ring, htail]
    exact h.slots _ d le_rfl hlow hd j hj

/-- The writer stores the payload in the slot of `head`; the lower slots keep their bytes, since the
records are stored behind them. -/
theorem udpSocketAppend_slot {s : UdpSocket} {m : ℕ} (hm : m < 20) (hhead : s.head = 1472 * m)
    (hfree : ∀ j < 1472, (1472 * m + j + 1) % 29440 ≠ s.tail) (payload : ℕ → UInt8) (len : ℕ) :
    (s.udpSocketAppend payload len).head = 1472 * (m + 1) % 29440 ∧
    (∀ j < 1472, (s.udpSocketAppend payload len).mem (104 + (1472 * m + j)) = payload j) ∧
    ∀ i < 14, i ≠ m → ∀ j < 1472, (s.udpSocketAppend payload len).mem (104 + (1472 * i + j)) =
      s.mem (104 + (1472 * i + j)) := by
  have hs : udpWriterLen < 2 ^ 64 := by decide
  have hsize : udpWriterLen = 29440 := udpWriterLen_eq
  -- the socket whose record has been written
  obtain ⟨s1, hs1⟩ : ∃ s1, s1 = { s with
      mem := blit s.mem (lenRecordsAt + 8 * (s.head / udpMtu)) 8
        (leByte (if len > udpMtu then udpMtu else len)) } := ⟨_, rfl⟩
  have hq : s1.ring.head = 1472 * m := by rw [hs1]; exact hhead
  have htail : s1.ring.tail = s.tail := by rw [hs1]; rfl
  obtain ⟨h2, h3, h4⟩ := fifoWriteLoop_stretch hs payload udpMtu 0 s1.ring
    (by omega) (by rw [hq, hsize, udpMtu]; omega)
    (by intro j hj; rw [hq, hsize, htail]; exact hfree j hj)
  rw [hq, hsize] at h2
  rw [hq] at h3 h4
  have hresult : s.udpSocketAppend payload len =
      s1.setRing (fifoWriteLoop udpWriterLen payload udpMtu 0 s1.ring).ring := by
    rw [hs1]
    rfl
  have hmem : ∀ i, (s.udpSocketAppend payload len).mem (104 + i) =
      (fifoWriteLoop udpWriterLen payload udpMtu 0 s1.ring).ring.buf i := by
    intro i
    rw [hresult]
    simp [UdpSocket.setRing, sizeofNetTuple]
  refine ⟨?_, fun j hj => ?_, fun i hi hne j hj => ?_⟩
  · rw [hresult]
    exact h2
  · rw [hmem, h3 j hj, Nat.zero_add]
  · rw [hmem, h4 _ (by rw [udpMtu]; omega), hs1]
    have hrecords : lenRecordsAt = 28672 := rfl
    exact blit_of_not_mem _ _ (.inl (by rw [hrecords, sizeofNetTuple]; omega))

/-- An append keeps the queue. -/
theorem append (h : SlotQueue st) {d : Datagram} (hfits : udpKind.Fits st (.append d)) :
    SlotQueue { st with
      socket := st.socket.udpSocketAppend d.data d.len
      appended := st.appended ++ [d] } := by
  have hle := h.le
  have hroom := h.room
  have hlow := h.low
  have hhead := h.head
  have htail := h.tail
  have hfull : st.appended.length ≤ st.reads.length + 18 := by
    have hcount : st.socket.ring.count udpWriterLen + udpMtu < udpWriterLen := hfits.2.2
    rw [udpWriterLen_eq, udpMtu, RingBuf.count] at hcount
    simp only [UdpSocket.ring] at hcount
    omega
  obtain ⟨h1, h2, h3⟩ := udpSocketAppend_slot (Nat.mod_lt _ (by decide)) hhead
    (by intro j hj; rw [htail]; omega) d.data d.len
  constructor
  · simp only [length_append, length_singleton]
    omega
  · simp only [length_append, length_singleton]
    omega
  · exact hlow
  · rw [h1, length_append, length_singleton]
    omega
  · exact htail
  · intro m e hm hm14 he j hj
    replace hm : st.reads.length ≤ m := hm
    rcases Nat.lt_or_ge m st.appended.length with hlt | hge
    · rw [getElem?_append_left hlt] at he
      exact (h3 m hm14 (by omega) j hj).trans (h.slots m e hm hm14 he j hj)
    · have hlen := (List.getElem?_eq_some_iff.mp he).1
      rw [length_append, length_singleton] at hlen
      obtain rfl : m = st.appended.length := by omega
      rw [getElem?_concat_length] at he
      cases he
      have := h2 j hj
      rwa [Nat.mod_eq_of_lt (by omega)] at this
  · intro e he
    rcases mem_append.mp he with he | he
    · exact h.lens e he
    · obtain rfl := mem_singleton.mp he
      exact hfits.2.1
  · exact h.right.append d _

theorem inStep (h : SlotQueue st) : ReaderInStep st := by
  have hslots : udpWriterLen / udpMtu = 20 := rfl
  have := h.low
  rw [ReaderInStep, h.tail, hslots, udpMtu]
  omega

/-- **A read of a slot** keeps the queue if it uses the right length and the readers do not turn
behind it. -/
theorem record (h : SlotQueue st) (hne : st.socket.tail ≠ st.socket.head) {len n : ℕ}
    (hslot : SlotRight st len n) (rs : ℕ) :
    SlotQueue (st.record (udpKind.afterRead st.socket, rs,
      ⟨n, some (min len n), (udpKind.readChunk st.socket).out⟩)) := by
  obtain ⟨hlen, hturn⟩ := hslot
  obtain ⟨-, htail, hout⟩ := h.readChunk_slot hne
  obtain ⟨d, hd⟩ := h.exists_first hne
  have hlt := (List.getElem?_eq_some_iff.mp hd).1
  have hmtu : d.len ≤ 1472 := h.lens d (mem_of_getElem? hd)
  have hslots : udpReaderLen / udpMtu = 14 := rfl
  rw [h.tail, hslots, udpMtu] at hturn
  have hroom := h.room
  constructor
  · simpa [DatagramState.record] using Nat.succ_le_of_lt hlt
  · simp only [DatagramState.record, length_append, length_singleton]
    omega
  · simp only [DatagramState.record, length_append, length_singleton]
    omega
  · exact h.head
  · refine htail.trans ?_
    simp only [DatagramState.record, length_append, length_singleton]
    omega
  · intro m e hm hm14 he
    refine h.slots m e (le_trans ?_ hm) hm14 he
    simp [DatagramState.record]
  · exact h.lens
  · refine h.right.record hd ⟨congrArg some (hlen d hd), fun j hj => ?_⟩
    exact hout d hd j (by dsimp only at hj; omega)

theorem of_record (h : SlotQueue st) (hne : st.socket.tail ≠ st.socket.head) {len n rs : ℕ}
    {r : DatagramRead} (hn : r.payloadLen = n) (hcount : ∀ c, r.count = some c → c = min len n)
    (hright : (st.record (udpKind.afterRead st.socket, rs, r)).ReadsRight)
    (hstep : ReaderInStep (st.record (udpKind.afterRead st.socket, rs, r))) :
    SlotRight st len n := by
  constructor
  · intro d hd
    obtain ⟨e, he, hans, -⟩ := hright.last
    cases hd.symm.trans he
    rw [← hcount _ hans, ← hn]
  · obtain ⟨-, htail, -⟩ := h.readChunk_slot hne
    have hlow := h.low
    have hin : (udpKind.afterRead st.socket).tail = 1472 * ((st.reads.length + 1) % 20) := by
      simpa [ReaderInStep, DatagramState.record, udpMtu,
        show udpWriterLen / 1472 = 20 from rfl] using hstep
    have hslots : udpReaderLen / udpMtu = 14 := rfl
    have hmoved := hin.symm.trans htail
    rw [h.tail, hslots, udpMtu]
    omega

theorem keeps : udpKind.Keeps SlotRight ReaderInStep SlotQueue where
  start := of_start
  right h := h.right
  inStep := inStep
  sleepers h _ := ⟨h.le, h.room, h.low, h.head, h.tail, h.slots, h.lens, h.right⟩
  right_sleepers _ := Iff.rfl
  empty_iff h := h.tail_eq_head_iff
  outSize_iff {st} h := by
    refine ⟨fun hzero => by_contra fun hne => ?_, readChunk_empty⟩
    have := (h.readChunk_slot hne).1
    omega
  append h hfits := h.append hfits
  record h hne hslot := h.record hne hslot _
  of_record h hne hcount hright hstep := h.of_record hne rfl hcount hright hstep

end SlotQueue

/-- **The reads are right as long as the calls are harmless**: the `k`-th read has got the `k`-th
datagram, and the next fitting call keeps that exactly if it is harmless. -/
theorem readsRight_iff_harmless {st₀ st : UdpState} (hstart : udpKind.Start st₀)
    {calls : List DatagramCall}
    (hrun : Run udpKind.apply (fun st c => udpKind.Fits st c ∧ udpKind.Harmless SlotRight st c)
      st₀ calls st) :
    st.ReadsRight ∧ ∀ (c : DatagramCall) (st' : UdpState), udpKind.Fits st c →
      udpKind.apply st c = some st' →
      (st'.ReadsRight ∧ ReaderInStep st' ↔ udpKind.Harmless SlotRight st c) :=
  SlotQueue.keeps.readsRight_run hstart hrun

/-! ## The first datagram -/

/-- A new blocking socket whose memory holds `record` in the second entry of `len_records`, and
zeros elsewhere. -/
def newUdp (record : UInt8) : UdpState where
  socket :=
    { mem := fun a => if a = lenRecordsAt + 8 then record else 0
      head := 0
      tail := 0
      state := .closed
      receiveBlocking := true }
  sleepers := fun _ => none
  appended := []
  reads := []

def threeBytes : Datagram := ⟨fun j => UInt8.ofNat (j + 7), 3⟩

theorem newUdp_start (record : UInt8) : udpKind.Start (newUdp record) :=
  ⟨rfl, rfl, rfl, rfl⟩

/-- The record that the reader looks at has the length by chance. -/
theorem readsRight_iff_harmless_chance :
    ∃ st, Run udpKind.apply (fun st c => udpKind.Fits st c ∧ udpKind.Harmless SlotRight st c)
      (newUdp 3) [.append threeBytes, .read 0 false 3] st ∧ st.reads.length = 1 ∧
      st.ReadsRight := by
  refine Run.exists_of_eval (Q := fun st => st.reads.length = 1) (by decide +kernel) ?_
  intro st hrun hcount
  exact ⟨hcount, (readsRight_iff_harmless (newUdp_start 3) hrun).1⟩

/-- **The first datagram of a new socket is lost**: the reader looks at the record of the next slot
and returns 0. -/
theorem read_returns_no_length :
    ∃ st, Run udpKind.apply udpKind.Fits (newUdp 0)
      [.append threeBytes, .read 0 false 3] st ∧ ¬st.ReadsRight := by
  refine Run.exists_of_eval (Q := fun st =>
    st.reads.map (fun r => (r.payloadLen, r.count)) = [(3, some 0)] ∧
    st.appended.map Datagram.len = [3]) (by decide +kernel) ?_
  rintro st - ⟨hreads, happended⟩
  exact DatagramState.ReadsRight.not_of_count hreads happended (by decide)

end CarrotOS
