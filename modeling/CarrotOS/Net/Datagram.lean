import CarrotOS.Lib.Run
import CarrotOS.Mem.Fifo
import Mathlib.Logic.Function.Basic

/-!
# Reading datagrams

`read_socket_udp` and `read_socket_dgram` are one program text for two kinds of sockets. A read
takes one chunk of the size of the largest datagram out of the ring of the socket and returns a
length that it has read from a table of records. A blocking read that finds nothing sleeps, and
after an append it goes on with the length that it read before.

What the two kinds have of their own is a `DatagramKind`. A kind keeps its reads right if it says
which chunks are right ones, and shows that a read keeps its queue exactly if it finds a right chunk
(`DatagramKind.Keeps`).
-/

namespace CarrotOS

open RingQueue Transition Function List Option

/-- A datagram: the memory at `payload`, and its length. -/
structure Datagram where
  data : ℕ → UInt8
  len : ℕ

/-- A read that has returned: its `payload_len`, the value it returned, if any, and the bytes in its
buffer. -/
structure DatagramRead where
  payloadLen : ℕ
  count : Option ℕ
  payload : ℕ → UInt8

/-- A thread inside a blocking read that has gone to sleep: its `payload_len`, the length it has
read, and whether it has been woken. -/
structure DatagramSleeper where
  payloadLen : ℕ
  len : ℕ
  ready : Bool

/-- The socket, the threads that sleep on it, the datagrams appended so far, and the reads that took
bytes or returned a length. -/
structure DatagramState (σ : Type) where
  socket : σ
  sleepers : ℕ → Option DatagramSleeper
  appended : List Datagram
  reads : List DatagramRead

/-- An append, a read by a thread, or a thread that goes on after its sleep. -/
inductive DatagramCall where
  | append (d : Datagram)
  | read (tid : ℕ) (flagsNonBlocking : Bool) (payloadLen : ℕ)
  | resume (tid : ℕ)

/-- What the functions of one kind of sockets have of their own. -/
structure DatagramKind (σ : Type) where
  mtu : ℕ
  /-- The sizes of the ring for the writer and for the readers. -/
  writerLen : ℕ
  readerLen : ℕ
  queue : σ → RingBuf UInt8
  setTail : σ → ℕ → σ
  append : σ → (ℕ → UInt8) → ℕ → σ
  /-- The bytes that a datagram of a length takes in the ring. -/
  taken : ℕ → ℕ
  /-- The `len` of the readers. -/
  recordedLen : σ → ℕ
  receiveBlocking : σ → Bool
  closeWait : σ → Bool

/-! ## The code -/

def DatagramState.record {σ : Type} (st : DatagramState σ) (r : σ × ℕ × DatagramRead) :
    DatagramState σ :=
  { st with socket := r.1, reads := st.reads ++ [r.2.2] }

namespace DatagramKind

variable {σ : Type} (kind : DatagramKind σ)

/-- The `fifo_read8` of the readers into the cleared `tmp_buf`. -/
def readChunk (s : σ) : FifoReadResult UInt8 :=
  fifoRead8 kind.readerLen (kind.queue s) kind.mtu fun _ => 0

def afterRead (s : σ) : σ :=
  kind.setTail s (kind.readChunk s).ring.tail

/-- `read_socket_udp_non_blocking` and `read_socket_dgram_non_blocking`: `rs` and what the caller
gets. A control path without a `return` gives no value. -/
def readNonBlocking (s : σ) (payloadLen : ℕ) : σ × ℕ × DatagramRead :=
  let r := kind.readChunk s
  (kind.afterRead s, r.outSize,
    { payloadLen
      count :=
        if r.outSize ≠ 0 ∧ kind.recordedLen s ≠ 0 then some (min (kind.recordedLen s) payloadLen)
        else none
      payload := r.out })

/-- A step of `read_socket_udp_blocking` or `read_socket_dgram_blocking`: one `fifo_read8` and the
value it returns if it does not go to sleep. The length is read once, before the thread sleeps. -/
def readBlocking (s : σ) (payloadLen len : ℕ) : σ × ℕ × DatagramRead :=
  let r := kind.readChunk s
  (kind.afterRead s, r.outSize,
    { payloadLen, count := some (min len payloadLen), payload := r.out })

/-- The rest of a blocking read after its sleep. -/
def goOn (st : DatagramState σ) (p : DatagramSleeper) : DatagramState σ :=
  -- `-EBADF`
  if kind.closeWait st.socket then st
  else
    let r := kind.readBlocking st.socket p.payloadLen p.len
    -- a result of 0 without a byte says that there was nothing to read
    if r.2.1 ≠ 0 ∨ r.2.2.count ≠ some 0 then st.record r else st

/-- `read_socket_udp` and `read_socket_dgram`. -/
def readSocket (st : DatagramState σ) (tid : ℕ) (flagsNonBlocking : Bool) (payloadLen : ℕ) :
    DatagramState σ :=
  -- `-EINVAL`
  if payloadLen > kind.mtu then st
  else if kind.receiveBlocking st.socket && !flagsNonBlocking then
    let len := kind.recordedLen st.socket
    let r := kind.readBlocking st.socket payloadLen len
    if r.2.1 ≠ 0 then st.record r
    else { st with sleepers := update st.sleepers tid (some ⟨payloadLen, len, false⟩) }
  else
    let r := kind.readNonBlocking st.socket payloadLen
    if r.2.1 ≠ 0 then st.record r else st

def apply (st : DatagramState σ) : DatagramCall → Option (DatagramState σ)
  | .append d =>
    some { st with
      socket := kind.append st.socket d.data d.len
      -- every thread that is blocked on `recv_wait_flag` is made ready
      sleepers := fun tid => (st.sleepers tid).map fun p => { p with ready := true }
      appended := st.appended ++ [d] }
  | .read tid flagsNonBlocking payloadLen =>
    some (kind.readSocket st tid flagsNonBlocking payloadLen)
  | .resume tid =>
    match st.sleepers tid with
    | none => none
    | some p =>
      if !p.ready then none
      else some (kind.goOn { st with sleepers := update st.sleepers tid none } p)

/-- A socket whose queue has not been used; its memory is as the allocator left it. -/
structure Start (st : DatagramState σ) : Prop where
  head : (kind.queue st.socket).head = 0
  tail : (kind.queue st.socket).tail = 0
  appended : st.appended = []
  reads : st.reads = []

/-- Datagrams of 1 to `mtu` bytes for which the writer's ring has room; a thread makes a call after
its last one has returned. -/
def Fits (st : DatagramState σ) : DatagramCall → Prop
  | .append d =>
    1 ≤ d.len ∧ d.len ≤ kind.mtu ∧
      (kind.queue st.socket).count kind.writerLen + kind.taken d.len < kind.writerLen
  | .read tid _ _ => (st.sleepers tid).isNone
  | .resume _ => True

instance decidableFits (st : DatagramState σ) : (c : DatagramCall) → Decidable (kind.Fits st c)
  | .append _ => inferInstanceAs (Decidable (_ ∧ _ ∧ _))
  | .read .. => inferInstanceAs (Decidable (_ = true))
  | .resume _ => inferInstanceAs (Decidable True)

def Empty (s : σ) : Prop :=
  (kind.queue s).tail = (kind.queue s).head

instance decidableEmpty (s : σ) : Decidable (kind.Empty s) :=
  inferInstanceAs (Decidable (_ = _))

section Harmless

variable (Right : DatagramState σ → ℕ → ℕ → Prop)

/-- A thread that goes on after its sleep finds a right chunk or, without one, the length 0. -/
def GoesOnRight (st : DatagramState σ) (p : DatagramSleeper) : Prop :=
  ¬kind.closeWait st.socket →
    if kind.Empty st.socket then min p.len p.payloadLen = 0 else Right st p.len p.payloadLen

/-- A call that keeps the reads right: a read that finds bytes must find a right chunk for its
length, and a non-blocking one a length. -/
def Harmless (st : DatagramState σ) : DatagramCall → Prop
  | .append _ => True
  | .read _ flagsNonBlocking payloadLen =>
    payloadLen ≤ kind.mtu → ¬kind.Empty st.socket →
      Right st (kind.recordedLen st.socket) payloadLen ∧
      (kind.receiveBlocking st.socket && !flagsNonBlocking ∨ kind.recordedLen st.socket ≠ 0)
  | .resume tid => ∀ p, st.sleepers tid = some p → kind.GoesOnRight Right st p

instance decidableGoesOnRight [∀ st len n, Decidable (Right st len n)] (st : DatagramState σ) :
    DecidablePred (kind.GoesOnRight Right st) :=
  fun _ => inferInstanceAs (Decidable (_ → _))

instance decidableHarmless [∀ st len n, Decidable (Right st len n)] (st : DatagramState σ) :
    (c : DatagramCall) → Decidable (kind.Harmless Right st c)
  | .append _ => inferInstanceAs (Decidable True)
  | .read .. => inferInstanceAs (Decidable (_ → _ → _ ∧ _))
  | .resume tid => inferInstanceAs (Decidable (∀ p ∈ st.sleepers tid, _))

end Harmless

end DatagramKind

/-! ## Reads and datagrams -/

/-- The read got the datagram: the first bytes of it, and their number. -/
def Datagram.Answered (d : Datagram) (r : DatagramRead) : Prop :=
  r.count = some (min r.payloadLen d.len) ∧
    ∀ j < min r.payloadLen d.len, r.payload j = d.data j

namespace DatagramState

variable {σ : Type}

/-- The `k`-th read got the `k`-th datagram. -/
def ReadsRight (st : DatagramState σ) : Prop :=
  ∀ (k : ℕ) (r : DatagramRead), st.reads[k]? = some r →
    ∃ d : Datagram, st.appended[k]? = some d ∧ d.Answered r

namespace ReadsRight

variable {st : DatagramState σ} {r : σ × ℕ × DatagramRead} {d : Datagram}

theorem append (h : st.ReadsRight) (d : Datagram) (socket : σ) :
    { st with socket, appended := st.appended ++ [d] }.ReadsRight := by
  intro k r hr
  obtain ⟨e, he, hans⟩ := h k r hr
  have hlt := (List.getElem?_eq_some_iff.mp he).1
  exact ⟨e, (getElem?_append_left hlt).trans he, hans⟩

theorem record (h : st.ReadsRight) (hd : st.appended[st.reads.length]? = some d)
    (hr : d.Answered r.2.2) : (st.record r).ReadsRight := by
  intro k r' hr'
  rcases Nat.lt_or_ge k st.reads.length with hk | hk
  · exact h k r' ((getElem?_append_left hk).symm.trans hr')
  · have hk' := (List.getElem?_eq_some_iff.mp hr').1
    simp only [DatagramState.record, length_append, length_singleton] at hk'
    obtain rfl : k = st.reads.length := by omega
    obtain rfl : r.2.2 = r' := by simpa [DatagramState.record] using hr'
    exact ⟨d, hd, hr⟩

theorem last (h : (st.record r).ReadsRight) :
    ∃ d, st.appended[st.reads.length]? = some d ∧ d.Answered r.2.2 :=
  h _ r.2.2 getElem?_concat_length

theorem length_lt (h : (st.record r).ReadsRight) : st.reads.length < st.appended.length := by
  obtain ⟨d, hd, -⟩ := h.last
  exact (List.getElem?_eq_some_iff.mp hd).1

theorem not_of_count {n len : ℕ}
    (hreads : st.reads.map (fun r => (r.payloadLen, r.count)) = [(n, some 0)])
    (happended : st.appended.map Datagram.len = [len]) (hpos : min n len ≠ 0) :
    ¬st.ReadsRight := by
  obtain ⟨r, hr, hvalues⟩ := map_eq_singleton_iff.mp hreads
  obtain ⟨d, hd, rfl⟩ := map_eq_singleton_iff.mp happended
  obtain ⟨rfl, hcount⟩ := Prod.mk.inj hvalues
  intro hright
  obtain ⟨e, he, hans, -⟩ := hright 0 r (by rw [hr]; rfl)
  rw [hd] at he
  cases he
  exact hpos (some.inj (hans.symm.trans hcount))

end ReadsRight

end DatagramState

/-! ## Steps and runs -/

namespace DatagramKind

variable {σ : Type} {kind : DatagramKind σ} {Right : DatagramState σ → ℕ → ℕ → Prop}
  {InStep Inv : DatagramState σ → Prop} {st st' : DatagramState σ}

/-- What a kind says about its queue: `Inv` holds as long as the reads are right and the reader is
in step, and a read keeps it exactly if it finds a chunk that is right for the length it uses. -/
structure Keeps (kind : DatagramKind σ) (Right : DatagramState σ → ℕ → ℕ → Prop)
    (InStep Inv : DatagramState σ → Prop) : Prop where
  start : ∀ {st}, kind.Start st → Inv st
  right : ∀ {st}, Inv st → st.ReadsRight
  inStep : ∀ {st}, Inv st → InStep st
  sleepers : ∀ {st}, Inv st → ∀ sleepers, Inv { st with sleepers }
  right_sleepers : ∀ {st len n} (sleepers : ℕ → Option DatagramSleeper),
    Right { st with sleepers } len n ↔ Right st len n
  empty_iff : ∀ {st}, Inv st →
    (kind.Empty st.socket ↔ st.reads.length = st.appended.length)
  outSize_iff : ∀ {st}, Inv st →
    ((kind.readChunk st.socket).outSize = 0 ↔ kind.Empty st.socket)
  append : ∀ {st d}, Inv st → kind.Fits st (.append d) →
    Inv { st with socket := kind.append st.socket d.data d.len, appended := st.appended ++ [d] }
  record : ∀ {st len n rs}, Inv st → ¬kind.Empty st.socket → Right st len n →
    Inv (st.record (kind.afterRead st.socket, rs,
      ⟨n, some (min len n), (kind.readChunk st.socket).out⟩))
  of_record : ∀ {st len n count rs}, Inv st → ¬kind.Empty st.socket →
    (∀ c, count = some c → c = min len n) →
    (st.record (kind.afterRead st.socket, rs,
      ⟨n, count, (kind.readChunk st.socket).out⟩)).ReadsRight →
    InStep (st.record (kind.afterRead st.socket, rs,
      ⟨n, count, (kind.readChunk st.socket).out⟩)) → Right st len n

namespace Keeps

variable (hk : kind.Keeps Right InStep Inv)
include hk

theorem not_readsRight_of_empty (h : Inv st) (he : kind.Empty st.socket)
    (r : σ × ℕ × DatagramRead) : ¬(st.record r).ReadsRight := by
  intro hright
  exact hright.length_lt.ne ((hk.empty_iff h).mp he)

/-- A call of `read_socket_udp` or `read_socket_dgram`. -/
theorem step_read (h : Inv st) (tid : ℕ) (flagsNonBlocking : Bool) (payloadLen : ℕ) :
    (kind.Harmless Right st (.read tid flagsNonBlocking payloadLen) →
        Inv (kind.readSocket st tid flagsNonBlocking payloadLen)) ∧
      ((kind.readSocket st tid flagsNonBlocking payloadLen).ReadsRight →
        InStep (kind.readSocket st tid flagsNonBlocking payloadLen) →
        kind.Harmless Right st (.read tid flagsNonBlocking payloadLen)) := by
  simp only [readSocket, readBlocking, readNonBlocking]
  by_cases hlen : payloadLen > kind.mtu
  · rw [if_pos hlen]
    exact ⟨fun _ => h, fun _ _ hle => absurd hle (Nat.not_le.mpr hlen)⟩
  have hle := Nat.le_of_not_lt hlen
  rw [if_neg hlen]
  by_cases he : kind.Empty st.socket
  · -- nothing is queued: the reader sleeps, or returns without a value
    have hrs := (hk.outSize_iff h).mpr he
    refine ⟨fun _ => ?_, fun _ _ _ hne => absurd he hne⟩
    simp only [hrs, ne_eq, not_true_eq_false, if_false]
    split
    · exact hk.sleepers h _
    · exact h
  have hrs := mt (hk.outSize_iff h).mp he
  simp only [ne_eq, hrs, not_false_eq_true, if_true, true_and]
  split
  · rename_i hblock
    constructor
    · intro hharmless
      exact hk.record h he (hharmless hle he).1
    · intro hright hin _ _
      exact ⟨hk.of_record h he (fun c hc => (some.inj hc).symm) hright hin, .inl hblock⟩
  · rename_i hblock
    constructor
    · intro hharmless
      obtain ⟨hchunk, hrec⟩ := hharmless hle he
      rw [if_pos (hrec.resolve_left hblock)]
      exact hk.record h he hchunk
    · intro hright hin _ _
      -- without a recorded length there is no value at all
      have hrec : kind.recordedLen st.socket ≠ 0 := by
        intro h0
        obtain ⟨d, -, hans, -⟩ := hright.last
        simp [h0] at hans
      rw [if_pos hrec] at hright hin
      exact ⟨hk.of_record h he (fun c hc => (some.inj hc).symm) hright hin, .inr hrec⟩

/-- The rest of a blocking read. -/
theorem step_goOn (h : Inv st) (p : DatagramSleeper) :
    (kind.GoesOnRight Right st p → Inv (kind.goOn st p)) ∧
      ((kind.goOn st p).ReadsRight → InStep (kind.goOn st p) → kind.GoesOnRight Right st p) := by
  rw [GoesOnRight, goOn]
  by_cases hclose : kind.closeWait st.socket
  · rw [if_pos hclose]
    exact ⟨fun _ => h, fun _ _ hne => absurd hclose hne⟩
  rw [if_neg hclose]
  simp only [hclose, readBlocking, Bool.false_eq_true, not_false_eq_true, forall_const]
  by_cases he : kind.Empty st.socket
  · have hrs := (hk.outSize_iff h).mpr he
    simp only [hrs, ne_eq, not_true_eq_false, false_or, some.injEq]
    rw [if_pos he]
    by_cases h0 : min p.len p.payloadLen = 0
    · rw [if_neg (not_not.mpr h0)]
      exact ⟨fun _ => h, fun _ _ => h0⟩
    · rw [if_pos h0]
      exact ⟨fun hh => absurd hh h0,
        fun hright => absurd hright (hk.not_readsRight_of_empty h he _)⟩
  · have hrs := mt (hk.outSize_iff h).mp he
    simp only [ne_eq, hrs, not_false_eq_true, true_or, if_true]
    rw [if_neg he]
    constructor
    · intro hchunk
      exact hk.record h he hchunk
    · intro hright hin
      exact hk.of_record h he (fun c hc => (some.inj hc).symm) hright hin

/-- **One step.** A harmless call keeps the queue, and a call is harmless if it keeps the reads
right and the reader in step. -/
theorem step (h : Inv st) {c : DatagramCall} (hfits : kind.Fits st c)
    (hstep : kind.apply st c = some st') :
    (kind.Harmless Right st c → Inv st') ∧
      (st'.ReadsRight → InStep st' → kind.Harmless Right st c) := by
  cases c with
  | append d =>
    cases hstep
    exact ⟨fun _ => hk.sleepers (hk.append h hfits) _, fun _ _ => trivial⟩
  | read tid flagsNonBlocking payloadLen =>
    cases hstep
    exact hk.step_read h tid flagsNonBlocking payloadLen
  | resume tid =>
    rw [apply] at hstep
    cases hp : st.sleepers tid with
    | none => simp [hp] at hstep
    | some p =>
      rw [hp] at hstep
      obtain ⟨-, hstep⟩ := ite_none_left_eq_some.mp hstep
      cases hstep
      -- the thread that leaves the table is no part of the queue it reads from
      obtain ⟨hkeeps, hback⟩ := hk.step_goOn (hk.sleepers h (update st.sleepers tid none)) p
      simp only [GoesOnRight, hk.right_sleepers] at hkeeps hback
      constructor
      · intro hharmless
        exact hkeeps (hharmless p hp)
      · intro hright hin q hq
        obtain rfl : p = q := some.inj (hp.symm.trans hq)
        exact hback hright hin

/-- The reads are right in every run of harmless calls, and the next call keeps that exactly if it
is harmless. -/
theorem readsRight_run {calls : List DatagramCall} {st₀ : DatagramState σ} (hstart : kind.Start st₀)
    (hrun : Run kind.apply (fun st c => kind.Fits st c ∧ kind.Harmless Right st c) st₀ calls st) :
    st.ReadsRight ∧ ∀ (c : DatagramCall) (st' : DatagramState σ), kind.Fits st c →
      kind.apply st c = some st' → (st'.ReadsRight ∧ InStep st' ↔ kind.Harmless Right st c) := by
  have h := hrun.iff_of_step (fun st => st.ReadsRight ∧ InStep st)
    (fun _ h => ⟨hk.right h, hk.inStep h⟩)
    (fun _ _ _ h hfits hstep => (hk.step h hfits hstep).imp_right fun hback hgood =>
      hback hgood.1 hgood.2) (hk.start hstart)
  exact ⟨h.1.1, h.2⟩

end Keeps

end DatagramKind

end CarrotOS
