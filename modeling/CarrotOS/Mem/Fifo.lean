import CarrotOS.Lib.Ring
import CarrotOS.Lib.Word

/-!
# The byte queues of `libs/mem/mem.h`

`fifo_read8` and `fifo_write8` move bytes between a caller's buffer and a ring in memory, one at
a time, and stop early when the ring is empty or full. Pipes, sockets, listen backlogs and the
terminal are built on them. The two routines are one algorithm for every cell type, so they are
stated over an arbitrary type of cells and used at bytes.
-/

namespace CarrotOS

open Function RingQueue Word List RingBuf

variable {i size : ℕ}

variable {α : Type*}

/-! ## The loops -/

/-- What a read leaves: the ring, the caller's buffer and the number of cells copied. -/
structure FifoReadResult (α : Type*) where
  ring : RingBuf α
  out : ℕ → α
  outSize : ℕ

/-- What a write leaves: the ring and the number of cells copied. -/
structure FifoWriteResult (α : Type*) where
  ring : RingBuf α
  inSize : ℕ

/-- The loop of `fifo_read8` with `rest` iterations to go. -/
def fifoReadLoop (size : ℕ) : ℕ → ℕ → RingBuf α → (ℕ → α) → FifoReadResult α
  -- the counters `i` and `out_size` of the source advance together
  | 0, i, q, out => ⟨q, out, i⟩
  | rest + 1, i, q, out =>
    if q.tail = q.head then ⟨q, out, i⟩
    else
      fifoReadLoop size rest (i + 1) { q with tail := u64 (q.tail + 1) % size }
        (update out i (q.buf q.tail))

/-- The loop of `fifo_write8` with `rest` iterations to go. -/
def fifoWriteLoop (size : ℕ) (input : ℕ → α) : ℕ → ℕ → RingBuf α → FifoWriteResult α
  | 0, i, q => ⟨q, i⟩
  | rest + 1, i, q =>
    -- one cell stays empty, so that a full ring is not taken for an empty one
    if q.tail = u64 (q.head + 1) % size then ⟨q, i⟩
    else
      fifoWriteLoop size input rest (i + 1)
        { q with
          buf := update q.buf q.head (input i)
          head := u64 (q.head + 1) % size }

def fifoRead (size : ℕ) (q : RingBuf α) (len : ℕ) (out : ℕ → α) : FifoReadResult α :=
  fifoReadLoop size len 0 q out

def fifoWrite (size : ℕ) (q : RingBuf α) (len : ℕ) (input : ℕ → α) : FifoWriteResult α :=
  fifoWriteLoop size input len 0 q

def fifoRead8 (size : ℕ) (q : RingBuf UInt8) (len : ℕ) (out : ℕ → UInt8) : FifoReadResult UInt8 :=
  fifoRead size q len out

def fifoWrite8 (size : ℕ) (q : RingBuf UInt8) (len : ℕ) (input : ℕ → UInt8) :
    FifoWriteResult UInt8 :=
  fifoWrite size q len input

/-- The first `len` cells of a buffer. -/
def cells (len : ℕ) (input : ℕ → α) : List α :=
  (range len).map input

@[simp] theorem length_cells (len : ℕ) (input : ℕ → α) : (cells len input).length = len := by
  simp [cells]

theorem take_cells (k len : ℕ) (input : ℕ → α) :
    (cells len input).take k = cells (min k len) input := by
  simp [cells, ← map_take, take_range]

theorem cells_add (m n : ℕ) (input : ℕ → α) :
    cells (m + n) input = cells m input ++ cells n fun k => input (m + k) := by
  simp [cells, range_add, Function.comp_def]

/-! ## One call -/

section OneCall

variable {size : ℕ} {q : RingBuf α}

theorem u64_succ_mod (hs : size < 2 ^ 64) (hi : i < size) :
    u64 (i + 1) % size = (i + 1) % size := by
  rw [u64_of_lt (by omega)]

/-- **The read loop** from its `i`-th iteration on copies `k` cells if it does not meet the head
before and stops there. -/
theorem fifoReadLoop_eq (hs : size < 2 ^ 64) {k rest : ℕ} (i : ℕ) (out : ℕ → α)
    (ht : q.tail < size) (hle : k ≤ rest) (hne : ∀ j < k, (q.tail + j) % size ≠ q.head)
    (hend : k < rest → (q.tail + k) % size = q.head) :
    fifoReadLoop size rest i q out = ⟨{ q with tail := (q.tail + k) % size },
      fun x => if x < i ∨ i + k ≤ x then out x else q.buf ((q.tail + (x - i)) % size), i + k⟩ := by
  have htail := Nat.mod_eq_of_lt ht
  induction k generalizing rest i q out with
  | zero =>
    cases rest with
    | zero => simp [fifoReadLoop, htail, lt_or_ge]
    | succ rest =>
      have hempty : q.tail = q.head := htail.symm.trans (hend rest.succ_pos)
      simp [fifoReadLoop, if_pos hempty, htail, lt_or_ge]
  | succ k ih =>
    obtain ⟨rest, rfl⟩ := Nat.exists_eq_succ_of_ne_zero (Nat.ne_zero_of_lt hle)
    have h0 : q.tail ≠ q.head := htail ▸ hne 0 k.succ_pos
    have hmod : ∀ j, ((q.tail + 1) % size + j) % size = (q.tail + (j + 1)) % size := by
      intro j
      rw [Nat.mod_add_mod, Nat.add_assoc, Nat.add_comm 1]
    rw [fifoReadLoop, if_neg h0, u64_succ_mod hs ht, ih (i + 1) _ (Nat.mod_lt _ (by omega))
      (Nat.le_of_succ_le_succ hle) (fun j hj => hmod j ▸ hne (j + 1) (by omega))
      (fun hlt => (hmod k).trans (hend (by omega))) (Nat.mod_mod _ _)]
    simp only [hmod, Nat.add_right_comm i 1, Nat.add_assoc i]
    congr 1
    funext x
    rcases Nat.lt_trichotomy x i with hx | rfl | hx
    · rw [if_pos (.inl (by omega)), if_pos (.inl hx), update_of_ne hx.ne]
    · rw [if_pos (.inl x.lt_succ_self), if_neg (by omega), update_self, Nat.sub_self, Nat.add_zero,
        htail]
    · rw [update_of_ne hx.ne', show x - (i + 1) + 1 = x - i by omega]
      exact if_congr (by omega) rfl rfl

theorem fifoRead_eq (hs : size < 2 ^ 64) (hv : q.Valid size) (len : ℕ) (out : ℕ → α) :
    fifoRead size q len out = ⟨{ q with tail := (q.tail + min len (q.count size)) % size },
      fun x => if min len (q.count size) ≤ x then out x else q.buf ((q.tail + x) % size),
      min len (q.count size)⟩ := by
  rw [fifoRead, fifoReadLoop_eq hs 0 out hv.1 (Nat.min_le_left len (q.count size))
    (fun j hj => cell_ne_head hv (by omega))
    fun hlt => by rw [Nat.min_eq_right (by omega)]; exact cell_count hv]
  simp

/-- The write loop from its `i`-th iteration on: it appends the next cells of the input while
there is room. -/
theorem fifoWriteLoop_spec (hs : size < 2 ^ 64) (input : ℕ → α) (rest i : ℕ) (q : RingBuf α)
    (hv : q.Valid size) :
    let r := fifoWriteLoop size input rest i q
    r.ring.Valid size ∧ r.inSize = i + min rest (size - 1 - q.count size) ∧
      r.ring.contents size = q.contents size ++
        cells (min rest (size - 1 - q.count size)) (fun k => input (i + k)) := by
  induction rest generalizing i q with
  | zero => simp [fifoWriteLoop, hv, cells]
  | succ rest ih =>
    have hfull := full_iff hv
    have hlt := count_lt hv
    by_cases hf : q.tail = (q.head + 1) % size
    · have h0 : size - 1 - q.count size = 0 := by have := hfull.mp hf; omega
      simp only [fifoWriteLoop, u64_succ_mod hs hv.2, if_pos hf, h0]
      simp [hv, cells]
    · have hroom : q.count size < size - 1 := by
        omega
      have hq : { q with
          buf := update q.buf q.head (input i)
          head := (q.head + 1) % size } = q.push size (input i) := rfl
      have hc := count_push hv hroom (input i)
      obtain ⟨h1, h2, h3⟩ := ih (i + 1) (q.push size (input i)) (push_valid hv _)
      simp only [fifoWriteLoop, u64_succ_mod hs hv.2, if_neg hf, hq]
      have hmin : min (rest + 1) (size - 1 - q.count size) =
          min rest (size - 1 - (q.push size (input i)).count size) + 1 := by omega
      refine ⟨h1, by omega, ?_⟩
      rw [h3, contents_push hv hroom, hmin, append_assoc]
      simp [cells, range_succ_eq_map, Function.comp_def, Nat.add_assoc, Nat.add_comm 1]

theorem fifoWriteLoop_tail (input : ℕ → α) (rest i : ℕ) (q : RingBuf α) :
    (fifoWriteLoop size input rest i q).ring.tail = q.tail := by
  induction rest generalizing i q with
  | zero => rfl
  | succ rest ih =>
    rw [fifoWriteLoop]
    split
    · rfl
    · exact ih _ _

theorem fifoRead_spec (hs : size < 2 ^ 64) (hv : q.Valid size) (len : ℕ) (out : ℕ → α) :
    let r := fifoRead size q len out
    r.ring.Valid size ∧ r.outSize = min len (q.count size) ∧
      r.ring.contents size = (q.contents size).drop len ∧
      cells r.outSize r.out = (q.contents size).take len := by
  obtain ⟨hvalid, hskip⟩ := contents_skip hv (Nat.min_le_right len _)
  rw [fifoRead_eq hs hv]
  refine ⟨hvalid, rfl, hskip.trans ?_, ?_⟩
  · rw [drop_eq_drop_iff, length_contents, Nat.min_assoc, Nat.min_self]
  · rw [RingBuf.contents, ← map_take, take_range]
    exact map_congr_left fun x hx => if_neg (Nat.not_le_of_lt (mem_range.mp hx))

theorem fifoWrite_spec (hs : size < 2 ^ 64) (hv : q.Valid size) (len : ℕ) (input : ℕ → α) :
    let r := fifoWrite size q len input
    r.ring.Valid size ∧ r.inSize = min len (size - 1 - q.count size) ∧
      r.ring.contents size = q.contents size ++
        cells (min len (size - 1 - q.count size)) input := by
  simpa [fifoWrite] using fifoWriteLoop_spec hs input len 0 q hv

end OneCall

/-! ## A stretch of cells without a turn

The specifications above need both indices below the size. A caller that passes another size
than its partner does not have that; it still reads and writes whole stretches that end before
the size. -/

/-- The next index: only behind the last cell of the stretch it may turn to zero. -/
theorem stretch_succ {rest : ℕ} (hs : size < 2 ^ 64) (hfit : i + (rest + 1) ≤ size) :
    u64 (i + 1) % size = (i + 1) % size ∧ (i + 1) % size < size ∧
      (rest = 0 ∨ (i + 1) % size = i + 1) := by
  refine ⟨u64_succ_mod hs (by omega), Nat.mod_lt _ (by omega), ?_⟩
  rw [succ_mod (by omega)]
  split_ifs <;> omega

/-- The write loop on a stretch that ends before the size and does not run into the tail. -/
theorem fifoWriteLoop_stretch (hs : size < 2 ^ 64) (input : ℕ → α) (rest i : ℕ) (q : RingBuf α)
    (hh : q.head < size) (hfit : q.head + rest ≤ size)
    (hne : ∀ j < rest, (q.head + j + 1) % size ≠ q.tail) :
    let r := fifoWriteLoop size input rest i q
    r.ring.head = (q.head + rest) % size ∧
      (∀ j < rest, r.ring.buf (q.head + j) = input (i + j)) ∧
      ∀ k, k < q.head ∨ q.head + rest ≤ k → r.ring.buf k = q.buf k := by
  induction rest generalizing i q with
  | zero => simp [fifoWriteLoop, Nat.mod_eq_of_lt hh]
  | succ rest ih =>
    obtain ⟨hu, hlt, hnext⟩ := stretch_succ hs hfit
    have h0 : q.tail ≠ (q.head + 1) % size := (hne 0 (Nat.succ_pos _)).symm
    simp only [fifoWriteLoop, hu, if_neg h0]
    obtain ⟨h2, h3, h4⟩ := ih (i + 1)
      { q with buf := update q.buf q.head (input i), head := (q.head + 1) % size } hlt
      (by dsimp only; omega) fun j hj => by
        have := hne (j + 1) (by omega)
        rwa [hnext.resolve_left (by omega), Nat.add_right_comm q.head]
    refine ⟨?_, fun j hj => ?_, fun k hk => ?_⟩
    · rw [h2, Nat.mod_add_mod, Nat.add_assoc, Nat.add_comm 1]
    · rcases j with _ | j
      · exact (h4 q.head (by dsimp only; omega)).trans (update_self _ _ _)
      · rw [Nat.add_comm j 1, ← Nat.add_assoc, ← Nat.add_assoc, ← h3 j (by omega)]
        exact congrArg (fun t => (FifoWriteResult.ring _).buf (t + j))
          (hnext.resolve_left (by omega)).symm
    · exact (h4 k (by dsimp only; omega)).trans (update_of_ne (by omega) _ _)

/-! ## Sequences of calls -/

/-- A call of `fifo_read8` or `fifo_write8` on a ring of bytes, with the caller's buffer. -/
inductive FifoCall where
  | read (len : ℕ) (out : ℕ → UInt8)
  | write (len : ℕ) (input : ℕ → UInt8)

/-- A ring with the bytes read from it and accepted by it so far. -/
structure FifoRun where
  ring : RingBuf UInt8
  taken : List UInt8
  accepted : List UInt8

/-- One call, recording the bytes it moved. -/
def FifoCall.step (size : ℕ) (s : FifoRun) : FifoCall → FifoRun
  | .read len out =>
    let r := fifoRead8 size s.ring len out
    { s with ring := r.ring, taken := s.taken ++ cells r.outSize r.out }
  | .write len input =>
    let r := fifoWrite8 size s.ring len input
    { s with ring := r.ring, accepted := s.accepted ++ cells r.inSize input }

def runFifo (size : ℕ) (q : RingBuf UInt8) (calls : List FifoCall) : FifoRun :=
  calls.foldl (FifoCall.step size) ⟨q, [], []⟩

/-- The call moves as many bytes as it can: a write all the bytes there is room for, a read all
the bytes that are queued. -/
def FifoCall.Exact (size : ℕ) (q : RingBuf UInt8) : FifoCall → Prop
  | .read len out => (fifoRead8 size q len out).outSize = min len (q.count size)
  | .write len input => (fifoWrite8 size q len input).inSize = min len (size - 1 - q.count size)

/-- What a call means on the bounded queue. -/
def FifoCall.meaning {cap : ℕ} (b : Bounded cap UInt8) : FifoCall → Bounded cap UInt8
  | .read len _ => b.drop len
  | .write len input => b.put (cells len input)

section Sequence

variable {size : ℕ} {q : RingBuf UInt8}

theorem FifoCall.exact (hs : size < 2 ^ 64) (hv : q.Valid size) (c : FifoCall) :
    c.Exact size q := by
  cases c with
  | read len out => exact (fifoRead_spec hs hv len out).2.1
  | write len input => exact (fifoWrite_spec hs hv len input).2.1

/-- **One call** keeps the ring valid, does what it means on the bounded queue, and moves bytes from
its front to the reader and from the writer to its back. -/
theorem FifoCall.step_spec (hs : size < 2 ^ 64) (s : FifoRun) (hv : s.ring.Valid size)
    (c : FifoCall) :
    ∃ hv' : (c.step size s).ring.Valid size,
      (c.step size s).ring.toBounded hv' = c.meaning (s.ring.toBounded hv) ∧
      ∀ start, start ++ s.accepted = s.taken ++ s.ring.contents size →
        start ++ (c.step size s).accepted =
          (c.step size s).taken ++ (c.step size s).ring.contents size := by
  cases c with
  | read len out =>
    obtain ⟨h1, -, h3, h4⟩ := fifoRead_spec hs hv len out
    refine ⟨h1, Bounded.ext h3, fun start hstart => ?_⟩
    simp only [step, fifoRead8, h3, h4]
    rw [append_assoc, take_append_drop]
    exact hstart
  | write len input =>
    obtain ⟨h1, h2, h3⟩ := fifoWrite_spec hs hv len input
    refine ⟨h1, Bounded.ext ?_, fun start hstart => ?_⟩
    · simp only [step, fifoWrite8, meaning, Bounded.put, room_toBounded, take_cells]
      rw [min_comm]
      exact h3
    · simp only [step, fifoWrite8, h2, h3]
      rw [← append_assoc, hstart, append_assoc]

theorem runFifo_snoc (size : ℕ) (q : RingBuf UInt8) (calls : List FifoCall) (c : FifoCall) :
    runFifo size q (calls ++ [c]) = c.step size (runFifo size q calls) := by
  simp [runFifo]

theorem runFifo_spec (hs : size < 2 ^ 64) (hv : q.Valid size) (calls : List FifoCall) :
    ∃ hv' : (runFifo size q calls).ring.Valid size,
      (runFifo size q calls).ring.toBounded hv' =
        calls.foldl FifoCall.meaning (q.toBounded hv) ∧
      q.contents size ++ (runFifo size q calls).accepted =
        (runFifo size q calls).taken ++ (runFifo size q calls).ring.contents size := by
  induction calls using reverseRecOn with
  | nil => exact ⟨hv, rfl, by simp [runFifo]⟩
  | append_singleton calls c ih =>
    obtain ⟨hv1, hb, hc⟩ := ih
    obtain ⟨hv2, hb', hc'⟩ := c.step_spec hs (runFifo size q calls) hv1
    rw [runFifo_snoc]
    exact ⟨hv2, by rw [hb', hb, foldl_concat], hc' _ hc⟩

/-- **The byte ring is a queue.** Any sequence of calls acts as the bounded queue of `size - 1`
bytes, which holds `head - tail` bytes modulo the size; each call moves as many bytes as it can; and
the bytes read are a prefix of the initial contents followed by the bytes accepted. -/
theorem runFifo_refines (hsize : 1 ≤ size) (hs : size < 2 ^ 64) (hv : q.Valid size)
    (calls : List FifoCall) :
    (∃ hv' : (runFifo size q calls).ring.Valid size,
      (runFifo size q calls).ring.toBounded hv' =
        calls.foldl FifoCall.meaning (q.toBounded hv)) ∧
    ((runFifo size q calls).ring.contents size).length =
      (((runFifo size q calls).ring.head : ℤ) - (runFifo size q calls).ring.tail) % size ∧
    ((runFifo size q calls).ring.contents size).length ≤ size - 1 ∧
    (∀ pre c post, calls = pre ++ c :: post → c.Exact size (runFifo size q pre).ring) ∧
    (runFifo size q calls).taken <+: q.contents size ++ (runFifo size q calls).accepted := by
  obtain ⟨hv', hb, hc⟩ := runFifo_spec hs hv calls
  refine ⟨⟨hv', hb⟩, ?_, ?_, fun pre c post _ => ?_, ⟨_, hc.symm⟩⟩
  · have ht := hv'.1
    have hcast : (((runFifo size q calls).ring.head + size - (runFifo size q calls).ring.tail : ℕ) :
        ℤ) = (runFifo size q calls).ring.head - (runFifo size q calls).ring.tail + size := by omega
    rw [RingBuf.length_contents, RingBuf.count, Int.natCast_emod, hcast, Int.add_emod_right]
  · have := count_lt hv'
    rw [length_contents]
    omega
  · obtain ⟨hpre, -⟩ := runFifo_spec hs hv pre
    exact c.exact hs hpre

/-- Five bytes are offered to an empty ring of three cells that is about to go round. -/
theorem runFifo_refines_wrapped :
    (runFifo 3 ⟨fun _ => 0, 2, 2⟩
      [.write 5 fun k => UInt8.ofNat (k + 7), .read 1 fun _ => 0]).taken = [7] ∧
    (runFifo 3 ⟨fun _ => 0, 2, 2⟩
      [.write 5 fun k => UInt8.ofNat (k + 7), .read 1 fun _ => 0]).taken <+:
      (⟨fun _ => 0, 2, 2⟩ : RingBuf UInt8).contents 3 ++
        (runFifo 3 ⟨fun _ => 0, 2, 2⟩
          [.write 5 fun k => UInt8.ofNat (k + 7), .read 1 fun _ => 0]).accepted :=
  ⟨by decide, (runFifo_refines (by decide) (by decide) (by decide) _).2.2.2.2⟩

end Sequence

end CarrotOS
