import CarrotOS.Lib.Bytes
import CarrotOS.Net.State

/-!
# Queues of socket numbers

A listening socket, of the Internet as of the Unix domain, uses the bytes behind its structure as a
queue of the numbers of the sockets that wait to be accepted. Each number takes eight bytes, and
the number -1 stands for an empty queue.
-/

namespace CarrotOS

open RingQueue Bytes List

/-- What `push_backlog` does to the queue, and how many bytes of the number it has stored. -/
def pushId (size : ℕ) (q : RingBuf UInt8) (id : ℕ) : RingBuf UInt8 × ℕ :=
  let r := fifoWrite8 size q 8 (leByte id)
  (r.ring, r.inSize)

/-- What `pull_backlog` does to the queue, and its result. Bytes that are missing at the end are
those of the initial `-1`. -/
def pullId (size : ℕ) (q : RingBuf UInt8) : RingBuf UInt8 × ℕ :=
  let r := fifoRead8 size q 8 (leByte noId)
  (r.ring, if r.outSize = 0 then noId else leNat 8 r.out)

def idBytes (id : ℕ) : List UInt8 :=
  cells 8 (leByte id)

/-- The ring holds the numbers, first the one that is read next. -/
structure Queued (size : ℕ) (r : RingBuf UInt8) (q : List ℕ) : Prop where
  valid : r.Valid size
  contents : r.contents size = q.flatMap idBytes
  lt : ∀ c ∈ q, c < noId

section Numbers

variable {size id : ℕ} {r : RingBuf UInt8} {q : List ℕ}

theorem length_idBytes (id : ℕ) : (idBytes id).length = 8 :=
  length_cells 8 (leByte id)

theorem leNat_of_cells {m : ℕ → UInt8} (hid : id < 2 ^ 64) (h : cells 8 m = idBytes id) :
    leNat 8 m = id := by
  have hbytes : ∀ i < 8, m i = leByte id i := by
    intro i hi
    exact map_inj_left.mp h i (mem_range.mpr hi)
  rw [leNat_congr hbytes, leNat_leByte]
  exact Nat.mod_eq_of_lt hid

theorem pushId_spec (hs : size < 2 ^ 64) (hv : r.Valid size)
    (hroom : 8 ≤ size - 1 - r.count size) (id : ℕ) :
    (pushId size r id).2 ≠ 0 ∧ (pushId size r id).1.Valid size ∧
      (pushId size r id).1.contents size = r.contents size ++ idBytes id := by
  obtain ⟨hvalid, hsize, hcontents⟩ := fifoWrite_spec hs hv 8 (leByte id)
  rw [Nat.min_eq_left hroom] at hsize hcontents
  exact ⟨by simp [pushId, fifoWrite8, hsize], hvalid, hcontents⟩

theorem length_flatMap_idBytes (q : List ℕ) : (q.flatMap idBytes).length = 8 * q.length := by
  rw [length_flatMap, Nat.mul_comm]
  simp [length_idBytes]

theorem Queued.length (h : Queued size r q) : r.count size = 8 * q.length := by
  rw [← RingBuf.length_contents, h.contents, length_flatMap_idBytes]

theorem Queued.write (hs : size < 2 ^ 64) (h : Queued size r q)
    (hroom : 8 ≤ size - 1 - r.count size) (hid : id < noId) :
    Queued size (pushId size r id).1 (q ++ [id]) := by
  obtain ⟨-, hvalid, hcontents⟩ := pushId_spec hs h.valid hroom id
  refine ⟨hvalid, ?_, ?_⟩
  · rw [hcontents, h.contents, flatMap_append, flatMap_singleton]
  · intro c hc
    rcases mem_append.mp hc with hc | hc
    · exact h.lt c hc
    · rwa [mem_singleton.mp hc]

/-- The first number is taken; -1 stands for the empty queue. -/
theorem Queued.read (hs : size < 2 ^ 64) (h : Queued size r q) :
    Queued size (pullId size r).1 q.tail ∧ (pullId size r).2 = q.headD noId := by
  obtain ⟨hvalid, hsize, hcontents, hout⟩ := fifoRead_spec hs h.valid 8 (leByte noId)
  rw [h.length] at hsize
  rw [h.contents] at hcontents hout
  cases q with
  | nil =>
    refine ⟨⟨hvalid, hcontents, nofun⟩, ?_⟩
    exact if_pos hsize
  | cons c q =>
    have hsize8 : (fifoRead size r 8 (leByte noId)).outSize = 8 := by
      rw [hsize, length_cons]
      omega
    have hc := h.lt c mem_cons_self
    rw [hsize8, flatMap_cons, take_left' (length_idBytes c)] at hout
    rw [flatMap_cons, drop_left' (length_idBytes c)] at hcontents
    refine ⟨⟨hvalid, hcontents, fun c' hc' => h.lt c' (mem_cons_of_mem c hc')⟩, ?_⟩
    have hne : (fifoRead8 size r 8 (leByte noId)).outSize ≠ 0 := by
      rw [fifoRead8, hsize8]
      decide
    have hlt : c < 2 ^ 64 := by
      unfold noId at hc
      omega
    exact (if_neg hne).trans (leNat_of_cells hlt hout)

theorem Queued.eq_nil (h : Queued size r q) (hempty : r.tail = r.head) : q = [] := by
  have hcount := (RingBuf.eq_iff_count_eq_zero h.valid).mp hempty
  rw [h.length] at hcount
  exact eq_nil_of_length_eq_zero (by omega)

end Numbers

end CarrotOS
