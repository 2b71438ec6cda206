import CarrotOS.Net.Udp
import CarrotOS.Net.UnixSend

/-!
# The datagram queue of a Unix-domain socket (`core/network/af_unix/dgram.h`)

`socket_append_uds` writes the bytes of a datagram into the ring behind the structure, one datagram
right behind the other, and stores their number nowhere. The readers are those of the UDP sockets:
they take `DGRAM_MTU` bytes out of a ring whose size is rounded up to whole `DGRAM_MTU`, and return
the length that they find in `len_records`, which nothing ever writes.

So a read gets the next datagram if the record happens to hold its length, and if the chunk that is
taken out ends where the datagram ends: when no other one is queued behind it, or when it has
`DGRAM_MTU` bytes. Behind the end of the writer's ring the readers go on into the bytes that follow
it in memory.
-/

namespace CarrotOS

open RingQueue Bytes Transition Function List Option RingBuf Datagram

variable {ds : List Datagram} {k tid : ℕ} {d : Datagram}

/-! ## The code -/

def dgramMtu : ℕ := 1024

def dgramAdditionalSocketBlockCount : ℕ := 3

/-- The `buf_len` of the readers. -/
def dgramReaderSize : ℕ :=
  divCeil udsDgramSize dgramMtu * dgramMtu

/-- Where `len_records` is, from the start of the ring on. -/
def dgramLenRecordsAt : ℕ :=
  (socketBlockCount + dgramAdditionalSocketBlockCount - 1) * 4096 - 272

theorem udsDgramSize_eq : udsDgramSize = 20208 := rfl

theorem dgramReaderSize_eq : dgramReaderSize = 20480 := by
  decide

/-- The queue of `socket_append_uds`. -/
def dgramAppend (q : RingBuf UInt8) (payload : ℕ → UInt8) (payloadLen : ℕ) : RingBuf UInt8 :=
  (fifoWrite8 udsDgramSize q payloadLen payload).ring

/-- The `len` of the readers. The records are in the memory behind the ring. -/
def dgramRecordedLen (q : RingBuf UInt8) : ℕ :=
  leNat 8 fun b => q.buf (dgramLenRecordsAt + 8 * (q.head / dgramMtu) + b)

/-- Datagram sockets of the Unix domain, each its ring. No state of such a socket is
`NET_STATE_CLOSE_WAIT`, with which the source compares. -/
def dgramKind : DatagramKind (RingBuf UInt8) where
  mtu := dgramMtu
  writerLen := udsDgramSize
  readerLen := dgramReaderSize
  queue q := q
  setTail q tail := { q with tail }
  append := dgramAppend
  taken len := len
  recordedLen := dgramRecordedLen
  receiveBlocking _ := true
  closeWait _ := false

abbrev DgramState := DatagramState (RingBuf UInt8)

/-- **An append is what `handle_dgram_packet` does** to the first socket with the path; the other
sockets stay as they are. -/
theorem handleDgramPacket_ring {u u' : Uds} {path : List UInt8} {payload : ℕ → UInt8}
    {payloadLen i : ℕ} {t : UdsTupleStream} (hlen : payloadLen ≠ 0)
    (hfind : u.findSocketUdsWithLocalAddr path = some (some i)) (ht : u.sockets i = some t)
    (h : u.handleDgramPacket path payload payloadLen = some u') :
    u'.sockets i = some { t with ring := dgramAppend t.ring payload payloadLen } ∧
      ∀ j ≠ i, u'.sockets j = u.sockets j := by
  rw [Uds.handleDgramPacket, if_neg hlen, hfind] at h
  cases h
  constructor
  · exact (Table.modify_self ..).trans (by rw [ht]; rfl)
  · intro j hj
    exact Table.modify_of_ne hj

/-- Where a chunk ends that the readers take at `tail`. -/
def chunkEnd (q : RingBuf UInt8) : ℕ :=
  (q.tail + min dgramMtu (q.count dgramReaderSize)) % dgramReaderSize

def bytesBefore (ds : List Datagram) (k : ℕ) : ℕ :=
  ((ds.take k).map len).sum

def Datagram.bytes (d : Datagram) : List UInt8 :=
  cells d.len d.data

/-- The reader stands where the writer has put the datagram that is next. -/
def BytesInStep (st : DgramState) : Prop :=
  st.socket.tail = bytesBefore st.appended st.reads.length % udsDgramSize

/-- The length that the read uses gives the same count as that of the first queued datagram, the
chunk ends where it ends, and its bytes are the same for the readers as for the writer, whose ring
turns earlier. -/
def ChunkRight (st : DgramState) (len payloadLen : ℕ) : Prop :=
  ∀ d, st.appended[st.reads.length]? = some d →
    min len payloadLen = min payloadLen d.len ∧
    chunkEnd st.socket = (st.socket.tail + d.len) % udsDgramSize ∧
    ∀ j < min payloadLen d.len, st.socket.buf ((st.socket.tail + j) % dgramReaderSize) =
      st.socket.buf ((st.socket.tail + j) % udsDgramSize)

instance decidableChunkRight (st : DgramState) (len payloadLen : ℕ) :
    Decidable (ChunkRight st len payloadLen) :=
  inferInstanceAs (Decidable (∀ d ∈ st.appended[st.reads.length]?, _ ∧ _ ∧ ∀ j < _, _))

/-! ## One chunk -/

section Chunk

variable {q : RingBuf UInt8}

theorem valid_reader (hv : q.Valid udsDgramSize) : q.Valid dgramReaderSize := by
  obtain ⟨ht, hh⟩ := hv
  rw [udsDgramSize_eq] at ht hh
  rw [dgramReaderSize_eq]
  exact ⟨by omega, by omega⟩

theorem readChunk_spec (hv : q.Valid udsDgramSize) :
    (dgramKind.readChunk q).outSize = min dgramMtu (q.count dgramReaderSize) ∧
    dgramKind.afterRead q = { q with tail := chunkEnd q } ∧
    ∀ j < min dgramMtu (q.count dgramReaderSize),
      (dgramKind.readChunk q).out j = q.buf ((q.tail + j) % dgramReaderSize) := by
  have hread := fifoRead_eq (by decide) (valid_reader hv) dgramMtu fun _ => 0
  rw [DatagramKind.afterRead, show dgramKind.readChunk q = _ from hread]
  exact ⟨rfl, rfl, fun j hj => if_neg (Nat.not_le_of_lt hj)⟩

theorem readChunk_outSize_eq_zero (hv : q.Valid udsDgramSize) :
    (dgramKind.readChunk q).outSize = 0 ↔ q.tail = q.head := by
  rw [(readChunk_spec hv).1, eq_iff_count_eq_zero (valid_reader hv), dgramMtu]
  omega

theorem le_chunk_of_chunkEnd (hv : q.Valid udsDgramSize) {len : ℕ} (hlen : len ≤ dgramMtu)
    (hend : chunkEnd q = (q.tail + len) % udsDgramSize) :
    len ≤ min dgramMtu (q.count dgramReaderSize) := by
  have ht := hv.1
  rw [chunkEnd] at hend
  obtain ⟨n, hn⟩ : ∃ n, n = min dgramMtu (q.count dgramReaderSize) := ⟨_, rfl⟩
  have hmtu : n ≤ dgramMtu := hn ▸ Nat.min_le_left _ _
  rw [← hn] at hend ⊢
  rw [dgramReaderSize_eq] at hend
  rw [udsDgramSize_eq] at ht hend
  rw [dgramMtu] at hlen hmtu
  -- a chunk that goes round the readers' ring is longer than the datagram
  rcases Nat.lt_or_ge (q.tail + n) 20480 with hround | hround
  · omega
  · omega

end Chunk

theorem bytesBefore_succ (hd : ds[k]? = some d) :
    bytesBefore ds (k + 1) = bytesBefore ds k + d.len := by
  simp [bytesBefore, take_add_one, hd]

theorem bytesBefore_append (hk : k ≤ ds.length) (d : Datagram) :
    bytesBefore (ds ++ [d]) k = bytesBefore ds k := by
  rw [bytesBefore, bytesBefore, take_append_of_le_length hk]

/-! ## The queue -/

/-- What holds as long as the reads are right: the writer's ring holds the bytes of the datagrams
that have not been read. The records are not mentioned: nothing writes them. -/
structure ByteQueue (st : DgramState) : Prop where
  valid : st.socket.Valid udsDgramSize
  le : st.reads.length ≤ st.appended.length
  lens : ∀ d ∈ st.appended, 1 ≤ d.len ∧ d.len ≤ dgramMtu
  contents : st.socket.contents udsDgramSize =
    (st.appended.drop st.reads.length).flatMap bytes
  inStep : BytesInStep st
  right : st.ReadsRight

namespace ByteQueue

variable {st : DgramState}

theorem of_start (h : dgramKind.Start st) : ByteQueue st := by
  have hhead : st.socket.head = 0 := h.head
  have htail : st.socket.tail = 0 := h.tail
  have hempty : st.socket.count udsDgramSize = 0 := by rw [RingBuf.count, hhead, htail]; rfl
  constructor
  · rw [RingBuf.Valid, hhead, htail]
    decide
  · simp [h.reads]
  · simp [h.appended]
  · rw [RingBuf.contents, hempty, h.appended]
    simp
  · rw [BytesInStep, htail, h.reads]
    rfl
  · simp [DatagramState.ReadsRight, h.reads]

section

variable (h : ByteQueue st)
include h

theorem append (hfits : dgramKind.Fits st (.append d)) :
    ByteQueue { st with
      socket := dgramAppend st.socket d.data d.len
      appended := st.appended ++ [d] } := by
  have hs : udsDgramSize < 2 ^ 64 := by decide
  obtain ⟨hone, hmtu, hroom⟩ := hfits
  replace hroom : st.socket.count udsDgramSize + d.len < udsDgramSize := hroom
  obtain ⟨hvalid, -, hcontents⟩ := fifoWrite_spec hs h.valid d.len d.data
  constructor
  · exact hvalid
  · simpa using Nat.le_succ_of_le h.le
  · intro e he
    rcases mem_append.mp he with he | he
    · exact h.lens e he
    · obtain rfl := mem_singleton.mp he
      exact ⟨hone, hmtu⟩
  · refine hcontents.trans ?_
    -- all bytes fit
    rw [Nat.min_eq_left (by omega), h.contents, drop_append_of_le_length h.le,
      flatMap_append]
    simp [bytes]
  · refine (fifoWriteLoop_tail _ _ _ _).trans ?_
    rw [bytesBefore_append h.le]
    exact h.inStep
  · exact h.right.append d _

theorem contents_eq (hd : st.appended[st.reads.length]? = some d) :
    st.socket.contents udsDgramSize =
      d.bytes ++ (st.appended.drop (st.reads.length + 1)).flatMap bytes := by
  obtain ⟨hlt, rfl⟩ := List.getElem?_eq_some_iff.mp hd
  rw [h.contents, drop_eq_getElem_cons hlt, flatMap_cons]

theorem buf_eq (hd : st.appended[st.reads.length]? = some d) :
    d.len ≤ st.socket.count udsDgramSize ∧
      ∀ j < d.len, st.socket.buf ((st.socket.tail + j) % udsDgramSize) = d.data j := by
  have hcontents := h.contents_eq hd
  have hlen := congrArg length hcontents
  rw [length_contents, length_append, bytes, length_cells] at hlen
  refine ⟨by omega, fun j hj => ?_⟩
  have hcell : (st.socket.contents udsDgramSize)[j]? = _ := congrArg (·[j]?) hcontents
  rw [getElem?_contents (by omega),
    getElem?_append_left (by simpa [bytes] using hj)] at hcell
  simpa [bytes, cells, hj] using hcell

theorem tail_eq_head_iff :
    st.socket.tail = st.socket.head ↔ st.reads.length = st.appended.length := by
  rw [eq_iff_count_eq_zero h.valid]
  constructor
  · intro hzero
    refine Nat.le_antisymm h.le (Nat.le_of_not_lt fun hlt => ?_)
    have hd := getElem?_eq_getElem hlt
    have := (h.buf_eq hd).1
    have := (h.lens _ (getElem_mem hlt)).1
    omega
  · intro hlen
    rw [← length_contents, h.contents, hlen, drop_length]
    rfl

theorem exists_first (hne : st.socket.tail ≠ st.socket.head) :
    ∃ d, st.appended[st.reads.length]? = some d ∧ d.len ≤ dgramMtu := by
  have hlt := Nat.lt_of_le_of_ne h.le (mt h.tail_eq_head_iff.mpr hne)
  exact ⟨_, getElem?_eq_getElem hlt, (h.lens _ (getElem_mem hlt)).2⟩

theorem next_eq (hd : st.appended[st.reads.length]? = some d) :
    bytesBefore st.appended (st.reads.length + 1) % udsDgramSize =
      (st.socket.tail + d.len) % udsDgramSize := by
  rw [bytesBefore_succ hd, h.inStep, Nat.mod_add_mod]

/-- **Before the writer's ring turns**, a chunk is right if the first datagram is the only one or
has `DGRAM_MTU` bytes. -/
theorem chunkRight_iff (hstraight : st.socket.tail ≤ st.socket.head)
    (hd : st.appended[st.reads.length]? = some d) (len payloadLen : ℕ) :
    ChunkRight st len payloadLen ↔ min len payloadLen = min payloadLen d.len ∧
      (st.reads.length + 1 = st.appended.length ∨ d.len = dgramMtu) := by
  obtain ⟨hlt, rfl⟩ := List.getElem?_eq_some_iff.mp hd
  obtain ⟨ht, hh⟩ := h.valid
  have hmtu := (h.lens _ (getElem_mem hlt)).2
  have hcontents := congrArg length (h.contents_eq hd)
  -- the bytes of the datagrams behind the first one
  obtain ⟨rest, hrest⟩ : ∃ rest, rest = st.appended.drop (st.reads.length + 1) := ⟨_, rfl⟩
  have hlast : (rest.flatMap bytes).length = 0 ↔
      st.reads.length + 1 = st.appended.length := by
    rw [length_eq_zero_iff, flatMap_eq_nil_iff]
    constructor
    · intro hnil
      refine Nat.le_antisymm hlt (Nat.le_of_not_lt fun hmore => ?_)
      have hmem : st.appended[st.reads.length + 1] ∈ rest := by
        rw [hrest, drop_eq_getElem_cons hmore]
        exact mem_cons_self
      have hpos := (h.lens _ (getElem_mem hmore)).1
      have hlen := congrArg length (hnil _ hmem)
      rw [bytes, length_cells, length_nil] at hlen
      omega
    · intro hlen
      rw [hrest, hlen, drop_length]
      exact fun _ hx => absurd hx not_mem_nil
  rw [← hrest, length_contents, count_eq h.valid, if_pos hstraight,
    length_append, bytes, length_cells] at hcontents
  have hcount := count_eq (valid_reader h.valid)
  rw [if_pos hstraight] at hcount
  rw [udsDgramSize_eq] at ht hh
  have hend :
      chunkEnd st.socket = (st.socket.tail + st.appended[st.reads.length].len) % udsDgramSize ↔
      st.reads.length + 1 = st.appended.length ∨ st.appended[st.reads.length].len = dgramMtu := by
    rw [chunkEnd, hcount, dgramReaderSize_eq, udsDgramSize_eq, ← hlast]
    omega
  constructor
  · intro hright
    obtain ⟨hmin, hchunk, -⟩ := hright _ hd
    exact ⟨hmin, hend.mp hchunk⟩
  · rintro ⟨hmin, hchunk⟩ e he
    cases hd.symm.trans he
    refine ⟨hmin, hend.mpr hchunk, fun j hj => ?_⟩
    rw [dgramReaderSize_eq, udsDgramSize_eq, Nat.mod_eq_of_lt (by omega),
      Nat.mod_eq_of_lt (by omega)]

/-- **A read of a chunk** keeps the queue if the chunk is right. -/
theorem record (hne : st.socket.tail ≠ st.socket.head) {len n : ℕ}
    (hchunk : ChunkRight st len n) (rs : ℕ) :
    ByteQueue (st.record (dgramKind.afterRead st.socket, rs,
      ⟨n, some (min len n), (dgramKind.readChunk st.socket).out⟩)) := by
  obtain ⟨d, hd, hmtu⟩ := h.exists_first hne
  obtain ⟨hmin, hend, hbytes⟩ := hchunk d hd
  obtain ⟨-, hring, hout⟩ := readChunk_spec h.valid
  obtain ⟨hle, hbuf⟩ := h.buf_eq hd
  have hlt := (List.getElem?_eq_some_iff.mp hd).1
  obtain ⟨hvalid, hskip⟩ := contents_skip h.valid hle
  rw [hring, hend]
  constructor
  · exact hvalid
  · simpa [DatagramState.record] using Nat.succ_le_of_lt hlt
  · exact h.lens
  · refine hskip.trans ?_
    rw [h.contents_eq hd, drop_left' (by simp [bytes])]
    simp [DatagramState.record]
  · change (st.socket.tail + d.len) % udsDgramSize = _
    rw [← h.next_eq hd]
    simp [DatagramState.record]
  · refine h.right.record hd ⟨congrArg some hmin, fun j hj => ?_⟩
    replace hj : j < min n d.len := hj
    have hlen := le_chunk_of_chunkEnd h.valid hmtu hend
    exact (hout j (by omega)).trans ((hbytes j hj).trans (hbuf j (by omega)))

theorem of_record {len n rs : ℕ} {r : DatagramRead} (hn : r.payloadLen = n)
    (hpayload : r.payload = (dgramKind.readChunk st.socket).out)
    (hcount : ∀ c, r.count = some c → c = min len n)
    (hright : (st.record (dgramKind.afterRead st.socket, rs, r)).ReadsRight)
    (hstep : BytesInStep (st.record (dgramKind.afterRead st.socket, rs, r))) :
    ChunkRight st len n := by
  intro d hd
  have hmtu : d.len ≤ dgramMtu := (h.lens d (mem_of_getElem? hd)).2
  obtain ⟨-, hring, hout⟩ := readChunk_spec h.valid
  obtain ⟨e, he, hans, hdata⟩ := hright.last
  cases hd.symm.trans he
  rw [hn] at hans hdata
  have hend : chunkEnd st.socket = (st.socket.tail + d.len) % udsDgramSize := by
    rw [← h.next_eq hd]
    simpa [BytesInStep, DatagramState.record, hring] using hstep
  refine ⟨(hcount _ hans).symm, hend, fun j hj => ?_⟩
  have hlen := le_chunk_of_chunkEnd h.valid hmtu hend
  rw [← hout j (by omega), ← hpayload, hdata j hj]
  exact ((h.buf_eq hd).2 j (by omega)).symm

end

theorem keeps : dgramKind.Keeps ChunkRight BytesInStep ByteQueue where
  start := of_start
  right h := h.right
  inStep h := h.inStep
  sleepers h _ := ⟨h.valid, h.le, h.lens, h.contents, h.inStep, h.right⟩
  right_sleepers _ := Iff.rfl
  empty_iff h := h.tail_eq_head_iff
  outSize_iff h := readChunk_outSize_eq_zero h.valid
  append h hfits := h.append hfits
  record h hne hchunk := h.record hne hchunk _
  of_record h _ hcount hright hstep := h.of_record rfl rfl hcount hright hstep

end ByteQueue

/-- **Datagrams keep their boundaries as long as the calls are harmless**: the `k`-th read has got
the `k`-th datagram, and the next fitting call keeps that exactly if it is harmless. -/
theorem dgramReads_iff_harmless {st₀ st : DgramState} (hstart : dgramKind.Start st₀)
    {calls : List DatagramCall}
    (hrun : Run dgramKind.apply
      (fun st c => dgramKind.Fits st c ∧ dgramKind.Harmless ChunkRight st c) st₀ calls st) :
    st.ReadsRight ∧ ∀ (c : DatagramCall) (st' : DgramState), dgramKind.Fits st c →
      dgramKind.apply st c = some st' →
      (st'.ReadsRight ∧ BytesInStep st' ↔ dgramKind.Harmless ChunkRight st c) :=
  ByteQueue.keeps.readsRight_run hstart hrun

/-! ## The first datagram -/

/-- A new socket whose memory holds `record` in the first entry of `len_records`, and zeros
elsewhere. -/
def newDgram (record : UInt8) : DgramState where
  socket := ⟨fun a => if a = dgramLenRecordsAt then record else 0, 0, 0⟩
  sleepers := fun _ => none
  appended := []
  reads := []

theorem newDgram_start (record : UInt8) : dgramKind.Start (newDgram record) :=
  ⟨rfl, rfl, rfl, rfl⟩

/-- The record has the length by chance, and the datagram is the only one. -/
theorem dgramReads_iff_harmless_chance :
    ∃ st, Run dgramKind.apply
        (fun st c => dgramKind.Fits st c ∧ dgramKind.Harmless ChunkRight st c) (newDgram 3)
        [.append threeBytes, .read 0 false 1024] st ∧
      st.reads.length = 1 ∧ st.ReadsRight := by
  refine Run.exists_of_eval (Q := fun st => st.reads.length = 1) (by decide) ?_
  intro st hrun hcount
  exact ⟨hcount, (dgramReads_iff_harmless (newDgram_start 3) hrun).1⟩

/-- **The first datagram of a new socket is lost**: there is no record of its length, and the read
returns 0. -/
theorem dgram_read_returns_no_length :
    ∃ st, Run dgramKind.apply dgramKind.Fits (newDgram 0)
      [.append threeBytes, .read 0 false 1024] st ∧ ¬st.ReadsRight := by
  refine Run.exists_of_eval (Q := fun st =>
    st.reads.map (fun r => (r.payloadLen, r.count)) = [(1024, some 0)] ∧
    st.appended.map len = [3]) (by decide) ?_
  rintro st - ⟨hreads, happended⟩
  exact DatagramState.ReadsRight.not_of_count hreads happended (by decide)

end CarrotOS
