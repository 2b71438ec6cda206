import CarrotOS.Lib.Run
import CarrotOS.Lib.Table
import CarrotOS.Mem.Fifo
import CarrotOS.Sched.Basic

/-!
# The line discipline of a terminal

Keys that are typed go to the ring `input_buf` of a terminal. In CLI mode a read returns the keys up
to the first newline. It looks for the newline and then reads as many keys as stand in front of it,
so the newline itself stays in the ring: it is the first key that the next read sees, and from then
on every read returns 0.
-/

namespace CarrotOS

open RingQueue Word Table Transition List Option RingBuf

variable {i : ℕ}

/-! ## The terminal -/

structure InputKey where
  modifier : UInt8
  key : UInt8
  deriving DecidableEq, Repr, Inhabited

def ttyInputSize : ℕ := 888

inductive TtyMode where
  | none | pty | cli | gui
  deriving DecidableEq, Repr

/-- `struct tty`: the rings `input_buf` and `output_buf` with their indices, the flag `echo`, the
address of the byte `locked`, and the mode. -/
structure Tty where
  input : RingBuf InputKey
  output : RingBuf InputKey
  echo : Bool
  locked : ℕ
  mode : TtyMode

/-- The fields of a thread that a key event reads and writes. -/
structure KeyThread where
  state : ThreadState
  sleepFlagAddr : ℕ
  deriving DecidableEq, Repr

structure Console where
  tty : Tty
  threads : ℕ → Option KeyThread

def isPrintable (k : InputKey) : Bool :=
  !(k.key < 0x20 || k.key > 0x7E) && k.modifier &&& ~~~(0x01 ||| 0x02) = 0

def isEnter (k : InputKey) : Bool :=
  k.key = 0x0A

/-- `fifo_read16` on keys of two bytes. -/
def fifoRead16 (size : ℕ) (q : RingBuf InputKey) (len : ℕ) (out : ℕ → InputKey) :
    FifoReadResult InputKey :=
  fifoRead size q len out

/-- `fifo_write16` on keys of two bytes. -/
def fifoWrite16 (size : ℕ) (q : RingBuf InputKey) (len : ℕ) (input : ℕ → InputKey) :
    FifoWriteResult InputKey :=
  fifoWrite size q len input

/-- The index in front of `i` round the ring. -/
def indexBefore (i : ℕ) : ℕ :=
  if i = 0 then ttyInputSize - 1 else i - 1

/-- A loop of `handle_backspace_input`: the last printable key behind `tail`. -/
def lastPrintable (q : RingBuf InputKey) : ℕ → ℕ → Option ℕ
  -- the indices go round, so `tail` is reached within one turn
  | 0, _ => none
  | fuel + 1, tmpHead =>
    if tmpHead = q.tail then none
    else if isPrintable (q.buf tmpHead) then some tmpHead
    else lastPrintable q fuel (indexBefore tmpHead)

def dropLastPrintable (q : RingBuf InputKey) : RingBuf InputKey :=
  { q with head := (lastPrintable q ttyInputSize (indexBefore q.head)).getD q.head }

def handleBackspaceInput (tty : Tty) : Tty :=
  { tty with
    input := dropLastPrintable tty.input
    output := if tty.echo then dropLastPrintable tty.output else tty.output }

def wakeThreadByInputEvent (threads : ℕ → Option KeyThread) (lockAddr : ℕ) : ℕ → Option KeyThread :=
  sweep maxThreadsCount (fun _ t => t.state == .blockedKey && t.sleepFlagAddr == lockAddr)
    (fun t => { t with state := .ready }) threads

/-- `write_1_event_input_to_tty`. The test for the newline reads the key behind `data`, which is
whatever stands there on the stack. -/
def write1EventInputToTty (c : Console) (data : InputKey) (next : UInt8) : Console :=
  if data.key = 0x08 then { c with tty := handleBackspaceInput c.tty }
  else
    let input := (fifoWrite16 ttyInputSize c.tty.input 1 fun _ => data).ring
    let output :=
      if c.tty.echo then (fifoWrite16 ttyInputSize c.tty.output 1 fun _ => data).ring
      else c.tty.output
    { tty := { c.tty with input, output }
      threads :=
        if c.tty.mode = .cli ∧ next = 10 then wakeThreadByInputEvent c.threads c.tty.locked
        else c.threads }

/-- The search of `read_input_line_to_thread_buffer`: how far from `tail` the first newline is. It
stops at `head`. -/
@[irreducible] def findEnter (size : ℕ) (q : RingBuf InputKey) : Option ℕ := do
  let i ← (range size).find? fun i =>
    u64 (i + q.tail) % size = q.head || isEnter (q.buf (u64 (i + q.tail) % size))
  if u64 (i + q.tail) % size = q.head then none else some i

/-- `read_input_line_to_thread_buffer`: the terminal, the caller's buffer and the result. -/
def readInputLineToThreadBuffer (tty : Tty) (buffer : ℕ → InputKey) (len : ℕ) :
    Tty × (ℕ → InputKey) × ℕ :=
  match findEnter ttyInputSize tty.input with
  | none => (tty, buffer, 0)
  | some i =>
    let countKeysRead := min i len
    let r := fifoRead16 ttyInputSize tty.input countKeysRead buffer
    ({ tty with input := r.ring }, r.out, countKeysRead)

/-! ## Lines -/

/-- The lines that a newline ends, without it. -/
def completeLines (typed : List InputKey) : List (List InputKey) :=
  (typed.splitOnP isEnter).dropLast

def nonEmptyLines (typed : List InputKey) : List (List InputKey) :=
  (completeLines typed).filter (· ≠ [])

theorem completeLines_of_forall {keys : List InputKey} (h : ∀ k ∈ keys, isEnter k = false) :
    completeLines keys = [] := by
  rw [completeLines, splitOnP_eq_singleton h]
  rfl

theorem completeLines_append_cons {line : List InputKey} {k : InputKey} (rest : List InputKey)
    (h : ∀ k ∈ line, isEnter k = false) (hk : isEnter k) :
    completeLines (line ++ k :: rest) = line :: completeLines rest := by
  rw [completeLines, splitOnP_append_cons_of_forall_mem h k hk,
    dropLast_cons_of_ne_nil (splitOnP_ne_nil _ _)]
  rfl

theorem line_cases (keys : List InputKey) : (∀ k ∈ keys, isEnter k = false) ∨
    ∃ line k rest, keys = line ++ k :: rest ∧ (∀ k ∈ line, isEnter k = false) ∧ isEnter k := by
  induction keys with
  | nil => simp
  | cons a keys ih =>
    by_cases ha : isEnter a
    · exact .inr ⟨[], a, keys, rfl, by simp, ha⟩
    · have ha := Bool.eq_false_iff.mpr ha
      rcases ih with hnone | ⟨line, k, rest, rfl, hline, hk⟩
      · exact .inl (forall_mem_cons.mpr ⟨ha, hnone⟩)
      · exact .inr ⟨a :: line, k, rest, rfl, forall_mem_cons.mpr ⟨ha, hline⟩, hk⟩

theorem length_le_of_mem_completeLines {typed line : List InputKey}
    (h : line ∈ completeLines typed) : line.length ≤ typed.length := by
  rcases line_cases typed with hnone | ⟨first, k, rest, rfl, hfirst, hk⟩
  · rw [completeLines_of_forall hnone] at h
    cases h
  · rw [completeLines_append_cons rest hfirst hk] at h
    rw [length_append, length_cons]
    rcases mem_cons.mp h with rfl | h
    · omega
    · have := length_le_of_mem_completeLines h
      omega
termination_by typed.length

/-! ## Runs -/

/-- The console with the keys typed and the lines that reads returned. -/
structure LineState where
  console : Console
  typed : List InputKey
  returned : List (List InputKey)

inductive LineEvent where
  | key (data : InputKey) (next : UInt8)
  | read (len : ℕ) (buffer : ℕ → InputKey)

/-- A read; it returns a line if its result is not 0. -/
def LineState.read (st : LineState) (len : ℕ) (buffer : ℕ → InputKey) : LineState :=
  let r := readInputLineToThreadBuffer st.console.tty buffer len
  { st with
    console := { st.console with tty := r.1 }
    returned := if r.2.2 = 0 then st.returned else st.returned ++ [cells r.2.2 r.2.1] }

def LineEvent.apply (st : LineState) : LineEvent → Option LineState
  | .key data next =>
    some { st with
      console := write1EventInputToTty st.console data next
      typed := st.typed ++ [data] }
  | .read len buffer => some (st.read len buffer)

/-- A terminal in CLI mode with no key queued. -/
structure LineStart (st : LineState) : Prop where
  mode : st.console.tty.mode = .cli
  valid : st.console.tty.input.Valid ttyInputSize
  empty : st.console.tty.input.tail = st.console.tty.input.head
  typed : st.typed = []
  returned : st.returned = []

/-- Printable keys and newlines for which there is room, and buffers that are long enough for every
line. -/
def LineEvent.Fits (st : LineState) : LineEvent → Prop
  | .key data _ =>
    (isPrintable data ∨ isEnter data) ∧ st.console.tty.input.count ttyInputSize < ttyInputSize - 1
  | .read len _ => ∀ line ∈ completeLines st.typed, line.length ≤ len

instance LineEvent.decidableFits (st : LineState) (e : LineEvent) : Decidable (e.Fits st) := by
  cases e <;> unfold LineEvent.Fits <;> infer_instance

/-- The lines returned so far and by further reads, into buffers for all keys, are the typed lines
that are not empty. -/
def Disciplined (st : LineState) : Prop :=
  ∃ m, ((fun st' => st'.read st.typed.length fun _ => default)^[m] st).returned =
    nonEmptyLines st.typed

/-! ## The search for the newline -/

section Search

variable {size : ℕ} {q : RingBuf InputKey}

theorem u64_add_tail (hs : size < 2 ^ 63) (hv : q.Valid size) (hi : i < size) :
    u64 (i + q.tail) % size = (q.tail + i) % size := by
  have := hv.1
  rw [u64_of_lt (by omega), Nat.add_comm]

theorem contents_split (hi : i < q.count size) :
    q.contents size = (q.contents size).take i ++
      q.buf ((q.tail + i) % size) :: (q.contents size).drop (i + 1) := by
  have hlen : i < (q.contents size).length := by simpa using hi
  have hget : (q.contents size)[i] = q.buf ((q.tail + i) % size) := by
    simp [contents]
  rw [← hget, getElem_cons_drop, take_append_drop]

/-- A newline is found: the keys in front of it are the first line. -/
theorem findEnter_eq_some (hs : size < 2 ^ 63) (hv : q.Valid size) (h : findEnter size q = some i) :
    ∃ line k rest, q.contents size = line ++ k :: rest ∧
      line.length = i ∧ (∀ k ∈ line, isEnter k = false) ∧ isEnter k := by
  rw [findEnter] at h
  obtain ⟨j, hj, hij⟩ := bind_eq_some_iff.mp h
  obtain ⟨hhead, hij⟩ := ite_none_left_eq_some.mp hij
  obtain rfl := some.inj hij
  obtain ⟨hstop, hmem, hbefore⟩ := find?_range_eq_some.mp hj
  have hlt := mem_range.mp hmem
  rw [u64_add_tail hs hv hlt] at hhead hstop
  -- the search has not passed `head`, so the cell is one of the queued ones
  have hcount : j < q.count size := by
    by_contra hge
    have hc := count_lt hv
    rcases Nat.eq_or_lt_of_le (Nat.le_of_not_lt hge) with heq | hlt'
    · exact hhead (heq ▸ cell_count hv)
    · have := hbefore _ hlt'
      rw [u64_add_tail hs hv hc, cell_count hv] at this
      simp at this
  refine ⟨_, _, _, contents_split hcount, ?_, ?_, ?_⟩
  · rw [length_take, length_contents, Nat.min_eq_left hcount.le]
  · intro k hk
    obtain ⟨m, hm, rfl⟩ := getElem_of_mem hk
    have hmj : m < j := by
      rw [length_take] at hm
      omega
    have := hbefore m hmj
    rw [u64_add_tail hs hv (hmj.trans hlt)] at this
    simp only [Bool.not_or, Bool.and_eq_true, Bool.not_eq_true'] at this
    simpa [contents] using this.2
  · simpa [hhead] using hstop

theorem findEnter_eq_none (hs : size < 2 ^ 63) (hv : q.Valid size)
    (h : findEnter size q = none) : ∀ k ∈ q.contents size, isEnter k = false := by
  intro k hk
  obtain ⟨m, hm, rfl⟩ := mem_map.mp hk
  have hm := mem_range.mp hm
  have hc := count_lt hv
  have hlt : m < size := hm.trans hc
  cases hfind : (range size).find? fun i =>
      u64 (i + q.tail) % size = q.head || isEnter (q.buf (u64 (i + q.tail) % size)) with
  | none =>
    have := find?_range_eq_none.mp hfind m hlt
    rw [u64_add_tail hs hv hlt] at this
    simp only [Bool.not_or, Bool.and_eq_true, Bool.not_eq_true'] at this
    exact this.2
  | some i =>
    rw [findEnter, hfind] at h
    obtain ⟨-, hmem, hbefore⟩ := find?_range_eq_some.mp hfind
    have hi := mem_range.mp hmem
    by_cases hhead : u64 (i + q.tail) % size = q.head
    · have hmi : m < i := by
        by_contra hge
        rw [u64_add_tail hs hv hi] at hhead
        exact cell_ne_head hv (Nat.lt_of_le_of_lt (Nat.le_of_not_lt hge) hm) hhead
      have := hbefore m hmi
      rw [u64_add_tail hs hv hlt] at this
      simp only [Bool.not_or, Bool.and_eq_true, Bool.not_eq_true'] at this
      exact this.2
    · simp [hhead] at h

end Search

/-! ## What reads return -/

/-- What holds in every run: nothing has been returned and all keys are queued, or the first line
has been returned and its newline is the first key of the queue. -/
structure Lines (st : LineState) : Prop where
  valid : st.console.tty.input.Valid ttyInputSize
  typed : st.typed = st.returned.flatten ++ st.console.tty.input.contents ttyInputSize
  returned : st.returned = [] ∨ ∃ line k rest, st.returned = [line] ∧ line ≠ [] ∧
    (∀ k ∈ line, isEnter k = false) ∧ isEnter k ∧
    st.console.tty.input.contents ttyInputSize = k :: rest

theorem Lines.of_start {st : LineState} (h : LineStart st) : Lines st where
  valid := h.valid
  typed := by
    have h0 := (eq_iff_count_eq_zero h.valid).mp h.empty
    have hnil : st.console.tty.input.contents ttyInputSize = [] :=
      length_eq_zero_iff.mp (by simp [h0])
    rw [h.typed, h.returned, hnil]
    rfl
  returned := .inl h.returned

section Events

variable {st : LineState}

theorem ttyInputSize_lt : ttyInputSize < 2 ^ 63 := by
  decide

theorem input_key {c : Console} {data : InputKey} (hv : c.tty.input.Valid ttyInputSize)
    (hroom : c.tty.input.count ttyInputSize < ttyInputSize - 1) (hback : data.key ≠ 0x08)
    (next : UInt8) :
    (write1EventInputToTty c data next).tty.input = c.tty.input.push ttyInputSize data := by
  have hfull := mt (full_iff hv).mp hroom.ne
  have hsucc := u64_succ_mod (show ttyInputSize < 2 ^ 64 by decide) hv.2
  rw [write1EventInputToTty, if_neg hback]
  simp only [fifoWrite16, fifoWrite, fifoWriteLoop, hsucc, if_neg hfull]
  rfl

theorem Lines.key (h : Lines st) {data : InputKey} {next : UInt8}
    (hfits : (LineEvent.key data next).Fits st) :
    Lines { st with
      console := write1EventInputToTty st.console data next
      typed := st.typed ++ [data] } := by
  obtain ⟨hkey, hroom⟩ := hfits
  have hback : data.key ≠ 0x08 := by
    intro heq
    simp [isPrintable, isEnter, heq] at hkey
  have hinput := input_key h.valid hroom hback next
  constructor
  · rw [hinput]
    exact push_valid h.valid data
  · rw [hinput, contents_push h.valid hroom, h.typed, append_assoc]
  · rw [hinput, contents_push h.valid hroom]
    rcases h.returned with hnil | ⟨line, k, rest, hret, hne, hline, hk, hrest⟩
    · exact .inl hnil
    · exact .inr ⟨line, k, rest ++ [data], hret, hne, hline, hk, by simp [hrest]⟩

/-- The first line that a read can return, if it is not empty. -/
def firstLine (typed : List InputKey) : List (List InputKey) :=
  ((completeLines typed).take 1).filter (· ≠ [])

theorem read_of_none (hfind : findEnter ttyInputSize st.console.tty.input = none) (len : ℕ)
    (buffer : ℕ → InputKey) : st.read len buffer = st := by
  rw [LineState.read, readInputLineToThreadBuffer, hfind]
  rfl

theorem read_of_some (hfind : findEnter ttyInputSize st.console.tty.input = some i) (len : ℕ)
    (buffer : ℕ → InputKey) :
    let r := fifoRead ttyInputSize st.console.tty.input (min i len) buffer
    st.read len buffer =
      { st with
        console := { st.console with tty := { st.console.tty with input := r.ring } }
        returned := if min i len = 0 then st.returned
          else st.returned ++ [cells (min i len) r.out] } := by
  rw [LineState.read, readInputLineToThreadBuffer, hfind]
  rfl

/-- **A read** returns the first line unless it has been returned before, and from then on nothing:
what has been returned after it is the first line. -/
theorem Lines.read (h : Lines st) {len : ℕ} (buffer : ℕ → InputKey)
    (hlen : ∀ line ∈ completeLines st.typed, line.length ≤ len) :
    Lines (st.read len buffer) ∧ (st.read len buffer).returned = firstLine st.typed := by
  have htyped := h.typed
  cases hfind : findEnter ttyInputSize st.console.tty.input with
  | none =>
    have hnone := findEnter_eq_none ttyInputSize_lt h.valid hfind
    rw [read_of_none hfind]
    refine ⟨h, ?_⟩
    rcases h.returned with hnil | ⟨line, k, rest, -, -, -, hk, hrest⟩
    · rw [hnil] at htyped ⊢
      rw [firstLine, htyped, flatten_nil, nil_append, completeLines_of_forall hnone]
      rfl
    · have := hnone k (hrest ▸ mem_cons_self)
      simp [hk] at this
  | some i =>
    obtain ⟨line, k, rest, hcontents, hi, hline, hk⟩ :=
      findEnter_eq_some ttyInputSize_lt h.valid hfind
    rcases h.returned with hnil | ⟨line', k', rest', hret, hne, hline', hk', hrest⟩
    · -- nothing has been returned: the keys in front of the newline are taken
      rw [hnil, hcontents, flatten_nil, nil_append] at htyped
      have hlines : completeLines st.typed = line :: completeLines rest := by
        rw [htyped, completeLines_append_cons rest hline hk]
      have hmin : min i len = line.length := by
        have := hlen line (hlines ▸ mem_cons_self)
        omega
      obtain ⟨hv, hsize, hring, hout⟩ := fifoRead_spec (by decide) h.valid
        line.length buffer
      have hcount : min line.length (st.console.tty.input.count ttyInputSize) = line.length := by
        rw [← length_contents, hcontents]
        simp
      rw [hsize, hcount, hcontents, take_left] at hout
      rw [hcontents, drop_left] at hring
      have hread := read_of_some hfind len buffer
      simp only [hmin, hout, hnil, nil_append] at hread
      have hfirst : firstLine st.typed = if line.length = 0 then [] else [line] := by
        rw [firstLine, hlines]
        cases line <;> simp
      rw [hread, hfirst]
      refine ⟨⟨hv, ?_, ?_⟩, rfl⟩
      · simp only [hring, htyped]
        cases line <;> simp
      · by_cases h0 : line = []
        · exact .inl (by simp [h0])
        · exact .inr ⟨line, k, rest, by simp [h0], h0, hline, hk, hring⟩
    · -- the newline of the first line is in front, so no key is taken
      have h0 : line = [] := by
        cases line with
        | nil => rfl
        | cons a line =>
          rw [hrest, cons_append] at hcontents
          have := hline a mem_cons_self
          rw [← (cons.inj hcontents).1, hk'] at this
          cases this
      have hread : st.read len buffer = st := by
        have hi0 : i = 0 := by rw [← hi, h0]; rfl
        rw [read_of_some hfind, hi0]
        simp [fifoRead, fifoReadLoop]
      rw [hread]
      refine ⟨h, ?_⟩
      rw [firstLine, htyped, hret, hrest]
      simp [completeLines_append_cons rest' hline' hk', hne]

theorem Lines.returned_cases (h : Lines st) :
    st.returned = [] ∨ st.returned = firstLine st.typed := by
  rcases h.returned with hnil | ⟨line, k, rest, hret, hne, hline, hk, hrest⟩
  · exact .inl hnil
  · right
    rw [firstLine, h.typed, hret, hrest]
    simp [completeLines_append_cons rest hline hk, hne]

theorem Lines.iterate_read (h : Lines st) (m : ℕ) :
    Lines ((fun st' => st'.read st.typed.length fun _ => default)^[m] st) ∧
      ((fun st' => st'.read st.typed.length fun _ => default)^[m] st).typed = st.typed := by
  induction m with
  | zero => exact ⟨h, rfl⟩
  | succ m ih =>
    rw [Function.iterate_succ_apply']
    refine ⟨(ih.1.read _ ?_).1, ih.2⟩
    rw [ih.2]
    exact fun line hline => length_le_of_mem_completeLines hline

theorem Lines.disciplined_iff_firstLine (h : Lines st) :
    Disciplined st ↔ firstLine st.typed = nonEmptyLines st.typed := by
  constructor
  · rintro ⟨m, hm⟩
    obtain ⟨hlines, htyped⟩ := h.iterate_read m
    rcases hlines.returned_cases with hnil | hfirst
    · -- nothing is ever returned, so there is nothing to return
      rw [hnil] at hm
      refine Eq.trans ?_ hm
      refine filter_eq_nil_iff.mpr fun line hline => ?_
      exact filter_eq_nil_iff.mp hm.symm line (mem_of_mem_take hline)
    · rw [← hm, hfirst, htyped]
  · intro heq
    refine ⟨1, ?_⟩
    rw [← heq]
    exact (h.read _ fun line hline => length_le_of_mem_completeLines hline).2

theorem Lines.of_run {st0 : LineState} {events : List LineEvent} (hstart : LineStart st0)
    (hrun : Run LineEvent.apply (fun st e => e.Fits st) st0 events st) : Lines st := by
  refine hrun.invariant Lines ?_ (.of_start hstart)
  intro st e st' h hfits hst'
  cases e with
  | key data next =>
    cases hst'
    exact h.key hfits
  | read len buffer =>
    cases hst'
    exact (h.read buffer hfits).1

end Events

/-- **When the line discipline works**: the reads return the typed lines in order and once each
exactly when all complete lines after the first one are empty. -/
theorem disciplined_iff {st₀ st : LineState} {events : List LineEvent} (hstart : LineStart st₀)
    (hrun : Run LineEvent.apply (fun st e => e.Fits st) st₀ events st) :
    Disciplined st ↔ ∀ line ∈ (completeLines st.typed).tail, line = [] := by
  rw [(Lines.of_run hstart hrun).disciplined_iff_firstLine, firstLine, nonEmptyLines]
  cases completeLines st.typed with
  | nil => simp
  | cons line lines =>
    have hrest : lines.filter (· ≠ []) = [] ↔ ∀ line ∈ lines, line = [] := by
      simp [filter_eq_nil_iff]
    rw [take_one, head?_cons, toList_some, tail_cons, filter_cons,
      filter_cons, filter_nil, ← hrest]
    split_ifs
    · rw [cons.injEq, eq_self, true_and, eq_comm]
    · rw [eq_comm]

/-! ## Two lines -/

def emptyLine : LineState :=
  ⟨⟨⟨⟨fun _ => default, 0, 0⟩, ⟨fun _ => default, 0, 0⟩, true, 0, .cli⟩, fun _ => none⟩, [], []⟩

theorem start_emptyLine : LineStart emptyLine :=
  ⟨rfl, by decide, rfl, rfl, rfl⟩

/-- One line is typed, and the read returns it. -/
theorem disciplined_iff_oneLine : ∃ st,
    Run LineEvent.apply (fun st e => e.Fits st) emptyLine
      [.key ⟨0, 0x61⟩ 0, .key ⟨0, 0x0A⟩ 0, .read 8 fun _ => default] st ∧
    st.returned = [[⟨0, 0x61⟩]] ∧ Disciplined st := by
  refine Run.exists_of_eval (Q := fun st => st.typed = [⟨0, 0x61⟩, ⟨0, 0x0A⟩] ∧
    st.returned = [[⟨0, 0x61⟩]]) (by decide +kernel) ?_
  rintro st hrun ⟨htyped, hreturned⟩
  refine ⟨hreturned, (disciplined_iff start_emptyLine hrun).mpr ?_⟩
  rw [htyped]
  decide

/-- **The second line is not read**, by any number of further reads. -/
theorem second_line_not_read : LineStart emptyLine ∧ ∃ st,
    Run LineEvent.apply (fun st e => e.Fits st) emptyLine
      [.key ⟨0, 0x61⟩ 0, .key ⟨0, 0x0A⟩ 0, .key ⟨0, 0x62⟩ 0, .key ⟨0, 0x0A⟩ 0,
        .read 8 fun _ => default, .read 8 fun _ => default] st ∧
    nonEmptyLines st.typed = [[⟨0, 0x61⟩], [⟨0, 0x62⟩]] ∧ st.returned = [[⟨0, 0x61⟩]] ∧
    ¬Disciplined st := by
  refine ⟨start_emptyLine, Run.exists_of_eval (Q := fun st =>
    completeLines st.typed = [[⟨0, 0x61⟩], [⟨0, 0x62⟩]] ∧ st.returned = [[⟨0, 0x61⟩]])
    (by decide +kernel) ?_⟩
  rintro st hrun ⟨hlines, hreturned⟩
  refine ⟨by rw [nonEmptyLines, hlines]; rfl, hreturned, ?_⟩
  intro hdisciplined
  have hlaw := (Lines.of_run start_emptyLine hrun).disciplined_iff_firstLine.mp hdisciplined
  rw [firstLine, nonEmptyLines, hlines] at hlaw
  cases hlaw

/-! ## Backspace -/

def Console.keys (c : Console) : List InputKey :=
  c.tty.input.contents ttyInputSize

/-- No key behind the last newline is printable. -/
def LineBlank (keys : List InputKey) : Prop :=
  ∀ k ∈ keys.reverse.takeWhile fun k => !isEnter k, isPrintable k = false

/-- Backspace takes back a printable key, and does nothing on a line without one. -/
structure EditsLine (c : Console) : Prop where
  undo : ∀ k next back next', isPrintable k → back.key = 0x08 →
    (write1EventInputToTty (write1EventInputToTty c k next) back next').keys = c.keys
  keep : ∀ back next, back.key = 0x08 → LineBlank c.keys →
    (write1EventInputToTty c back next).keys = c.keys

theorem indexBefore_succ (i : ℕ) : indexBefore ((i + 1) % ttyInputSize) = i % ttyInputSize := by
  rw [indexBefore, ttyInputSize]
  split_ifs <;> omega

section Backspace

variable {q : RingBuf InputKey} (hv : q.Valid ttyInputSize)
include hv

/-- The walk from the queued key `j` back to the first one, which it does not look at. -/
theorem lastPrintable_eq_find? {j fuel : ℕ} (hj : j < ttyInputSize) (hfuel : j < fuel) :
    lastPrintable q fuel ((q.tail + j) % ttyInputSize) =
      ((range j).map fun m => (q.tail + (m + 1)) % ttyInputSize).reverse.find?
        fun i => isPrintable (q.buf i) := by
  have ht := hv.1
  induction fuel generalizing j with
  | zero => cases hfuel
  | succ fuel ih =>
    cases j with
    | zero => exact if_pos (Nat.mod_eq_of_lt ht)
    | succ j =>
      have hne : (q.tail + (j + 1)) % ttyInputSize ≠ q.tail := by
        rw [ttyInputSize] at *
        omega
      rw [lastPrintable, if_neg hne, ← Nat.add_assoc, indexBefore_succ,
        ih (by omega) (by omega), range_succ, map_append, reverse_append]
      simp only [map_cons, map_nil, reverse_singleton, singleton_append, find?_cons, Nat.add_assoc]
      split <;> simp_all

/-- **Backspace on queued keys** leaves them if none but the first one is printable. -/
theorem contents_dropLastPrintable_iff (hne : q.tail ≠ q.head) :
    (dropLastPrintable q).contents ttyInputSize = q.contents ttyInputSize ↔
      ∀ k ∈ (q.contents ttyInputSize).tail, isPrintable k = false := by
  have ht := hv.1
  obtain ⟨j, hj⟩ := Nat.exists_eq_succ_of_ne_zero (mt (eq_iff_count_eq_zero hv).mpr hne)
  have hlt := count_lt hv
  have hbefore := indexBefore_succ (q.tail + j)
  rw [Nat.add_assoc, ← Nat.succ_eq_add_one, ← hj, cell_count hv] at hbefore
  have hfind := lastPrintable_eq_find? hv (j := j) (by omega) (hlt.trans_le' (by omega))
  have htail : (q.contents ttyInputSize).tail =
      (range j).map fun m => q.buf ((q.tail + (m + 1)) % ttyInputSize) := by
    rw [contents, hj, range_succ_eq_map, map_cons, tail_cons, List.map_map]
    rfl
  rw [htail, List.forall_mem_map, dropLastPrintable, hbefore, hfind]
  cases hlast : find? _ _ with
  | none => exact iff_of_true rfl (by simpa using hlast)
  | some i =>
    obtain ⟨m, hm, rfl⟩ := mem_map.mp (mem_reverse.mp (mem_of_find?_eq_some hlast))
    refine iff_of_false (fun heq => ?_) fun hnone => ?_
    · have hlen := congrArg length heq
      have := mem_range.mp hm
      rw [length_contents, length_contents, hj, RingBuf.count, getD_some] at hlen
      dsimp only at hlen
      rw [ttyInputSize] at *
      omega
    · have hprintable := find?_some hlast
      simp [hnone m hm] at hprintable

/-- **A printable key is taken back** unless it is the only one. -/
theorem contents_dropLastPrintable_push_iff {k : InputKey}
    (hroom : q.count ttyInputSize < ttyInputSize - 1) (hk : isPrintable k) :
    (dropLastPrintable (q.push ttyInputSize k)).contents ttyInputSize = q.contents ttyInputSize ↔
      q.tail ≠ q.head := by
  have hlast : lastPrintable (q.push ttyInputSize k) ttyInputSize
      (indexBefore (q.push ttyInputSize k).head) = if q.tail =
      q.head then none else some q.head := by
    rw [push, indexBefore_succ, Nat.mod_eq_of_lt hv.2, ttyInputSize, lastPrintable]
    simp [hk, eq_comm]
  rw [dropLastPrintable, hlast]
  split_ifs with h
  · refine iff_of_false (fun heq => ?_) (not_not_intro h)
    have hlen := congrArg length (heq.symm.trans (contents_push hv hroom k))
    simp at hlen
  · refine iff_of_true (map_congr_left fun m hm => Function.update_of_ne ?_ _ _) h
    exact cell_ne_head hv (mem_range.mp hm)

end Backspace

/-- **When backspace edits only the current line**: a key is queued, and if none on the current
line is printable, then none but the first one is. -/
theorem editsLine_iff (c : Console) (hv : c.tty.input.Valid ttyInputSize)
    (hroom : c.keys.length < ttyInputSize - 1) :
    EditsLine c ↔ c.tty.input.tail ≠ c.tty.input.head ∧
      (LineBlank c.keys → ∀ k ∈ c.keys.tail, isPrintable k = false) := by
  rw [Console.keys, length_contents] at hroom
  have hback : ∀ {c back next}, back.key = 0x08 →
      (write1EventInputToTty c back next).tty.input = dropLastPrintable c.tty.input := by
    intro c back next hkey
    rw [write1EventInputToTty, if_pos hkey]
    rfl
  have hundo : ∀ {k next back next'}, isPrintable k → back.key = 0x08 →
      ((write1EventInputToTty (write1EventInputToTty c k next) back next').keys = c.keys ↔
        c.tty.input.tail ≠ c.tty.input.head) := by
    intro k next back next' hk hkey
    have hne : k.key ≠ 0x08 := by
      intro heq
      simp [isPrintable, heq] at hk
    rw [Console.keys, hback hkey, input_key hv hroom hne]
    exact contents_dropLastPrintable_push_iff hv hroom hk
  constructor
  · intro h
    have hne := (hundo (by decide) rfl).mp (h.undo ⟨0, 0x61⟩ 0 ⟨0, 0x08⟩ 0 (by decide) rfl)
    exact ⟨hne, fun hblank => (contents_dropLastPrintable_iff hv hne).mp
      (h.keep ⟨0, 0x08⟩ 0 rfl hblank)⟩
  · rintro ⟨hne, hblank⟩
    refine ⟨fun k next back next' hk hkey => (hundo hk hkey).mpr hne, ?_⟩
    intro back next hkey hline
    rw [Console.keys, hback hkey]
    exact (contents_dropLastPrintable_iff hv hne).mpr (hblank hline)

/-- A newline is queued. -/
theorem editsLine_iff_newline : EditsLine (write1EventInputToTty emptyLine.console ⟨0, 0x0A⟩ 0) :=
  (editsLine_iff _ (by decide) (by decide)).mpr ⟨by decide, fun _ => by decide⟩

/-- **The only key is not taken back.** -/
theorem only_key_stays : emptyLine.console.tty.input.Valid ttyInputSize ∧
    emptyLine.console.keys.length < ttyInputSize - 1 ∧ ¬EditsLine emptyLine.console := by
  refine ⟨by decide, by decide, fun h => ?_⟩
  exact absurd (h.undo ⟨0, 0x61⟩ 0 ⟨0, 0x08⟩ 0 (by decide) rfl) (by decide)

end CarrotOS
