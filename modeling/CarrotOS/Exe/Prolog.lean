import CarrotOS.Exe.Rewind

/-!
# Unwinding a prologue

A function saves registers and allocates stack in its prologue, and describes each of these
operations by an unwind code, the last one first. `do_rewind` goes through the array from its end,
so it undoes the first operation first: the pointer still moves by the right amount, but every
register is loaded from the place that mirrors its own. It also takes the second slot of a large
allocation for a code, and it has other numbers for `rsi` and `rdi` than the processor.

What is loaded is therefore right exactly when the prologue is symmetric where it matters. The
places are given by their depth below the stack pointer on entry.
-/

namespace CarrotOS.Seh

open Bytes List

variable {d op s : ℕ} {r : RewindReg}

/-! ## Prologues -/

/-- The registers that a function has to preserve. -/
inductive Reg where
  | rbx | rbp | rsi | rdi | r12 | r13 | r14 | r15
  deriving DecidableEq, Repr

def Reg.number : Reg → ℕ
  | .rbx => 3
  | .rbp => 5
  | .rsi => 6
  | .rdi => 7
  | .r12 => 12
  | .r13 => 13
  | .r14 => 14
  | .r15 => 15

def RewindReg.toReg : RewindReg → Reg
  | .rbx => .rbx
  | .rdi => .rdi
  | .rsi => .rsi
  | .r12 => .r12
  | .r13 => .r13
  | .r14 => .r14
  | .r15 => .r15

/-- The stack pointer, the preserved registers and the memory. -/
structure Machine where
  rsp : UInt64
  regs : Reg → UInt64
  mem : UInt64 → UInt8

def write64 (mem : UInt64 → UInt8) (addr x : UInt64) : UInt64 → UInt8 := fun a =>
  if (a - addr).toNat < 8 then leByte x.toNat (a - addr).toNat else mem a

/-- An operation of a prologue: a push, a small allocation, or a large one with its 16-bit slot. -/
inductive PrologOp where
  | push (r : Reg)
  | allocSmall (info : Fin 16)
  | allocLarge (slot : UInt16)
  deriving DecidableEq

def PrologOp.size : PrologOp → ℕ
  | .push _ => 8
  | .allocSmall info => info * 8 + 8
  | .allocLarge slot => slot.toNat * 8

def PrologOp.exec (m : Machine) : PrologOp → Machine
  | .push r => { m with rsp := m.rsp - 8, mem := write64 m.mem (m.rsp - 8) (m.regs r) }
  | op => { m with rsp := m.rsp - .ofNat op.size }

/-- An operation with the offset behind its instruction. -/
structure PrologInstr where
  op : PrologOp
  offset : UInt8

def unwindWord (offset : UInt8) (op info : ℕ) : UInt16 :=
  .ofNat (offset.toNat + 256 * (op + 16 * info))

def PrologInstr.slots (c : PrologInstr) : List UInt16 :=
  match c.op with
  | .push r => [unwindWord c.offset 0 r.number]
  | .allocSmall info => [unwindWord c.offset 2 info]
  | .allocLarge slot => [unwindWord c.offset 1 0, slot]

/-- A prologue as it is encoded: the last operation first. -/
abbrev Codes := List PrologInstr

def Codes.slots (codes : Codes) : List UInt16 :=
  codes.flatMap PrologInstr.slots

def Codes.size (codes : Codes) : ℕ :=
  (codes.map fun c => c.op.size).sum

/-- What a prologue does, first operation first. -/
def exec (prolog : List PrologInstr) (entry : Machine) : Machine :=
  prolog.foldl (fun m c => c.op.exec m) entry

/-- The unwind data of a prologue, in the standard order and without a chain. -/
structure Encodes (info : UnwindInfo) (prolog : List PrologInstr) : Prop where
  version : info.version = 1
  flags : info.flags &&& 4 = 0
  count : info.countOfCodes.toNat = (Codes.slots prolog.reverse).length
  code : ∀ i (h : i < (Codes.slots prolog.reverse).length),
    info.unwindCode i = (Codes.slots prolog.reverse)[i]
  offset_le : ∀ c ∈ prolog, c.offset ≤ info.sizeOfProlog

/-- The depths below the entry at which a register is saved. -/
def depths (r : Reg) : Codes → List ℕ
  | [] => []
  | c :: codes =>
    if c.op = .push r then Codes.size (c :: codes) :: depths r codes else depths r codes

/-- A state of the body: the stack pointer is where the prologue left it, and the places of the
saved registers and the other registers are unchanged. -/
structure AfterProlog (prolog : List PrologInstr) (entry m : Machine) : Prop where
  rsp : m.rsp = (exec prolog entry).rsp
  saved : ∀ r, ∀ d ∈ depths r prolog.reverse, read64 m.mem (entry.rsp - .ofNat d) =
    read64 (exec prolog entry).mem (entry.rsp - .ofNat d)
  unsaved : ∀ r, depths r prolog.reverse = [] → m.regs r = entry.regs r

def Machine.trapFrame (m : Machine) (rip : UInt64) : TrapFrame :=
  ⟨rip, m.rsp, fun r => m.regs r.toReg⟩

/-- From every state of the body, unwinding at `rip` gives the stack pointer and the registers on
entry. -/
def Inverts (info : UnwindInfo) (runFunc : RuntimeFunction) (imageBaseAddr rip : UInt64)
    (prolog : List PrologInstr) : Prop :=
  ∀ entry m, AfterProlog prolog entry m → ∃ st,
    doRewind m.mem (m.trapFrame rip) info runFunc imageBaseAddr = .jumps st ∧
    st.rsp = entry.rsp ∧ ∀ r, st.regs r = entry.regs r.toReg

/-! ## When unwinding works -/

/-- By how much the second slots of the large allocations, taken for codes, move the stack
pointer. -/
def operandMoves (rva : UInt32) : Codes → (ℕ → UInt16) → ℕ
  | [], _ => 0
  | c :: codes, code =>
    (match c.op with
      | .allocLarge _ => moves rva fun k => code (1 + k)
      | _ => 0) + operandMoves rva codes fun k => code (c.slots.length + k)

/-- How far the pointer has moved when a register is loaded last. -/
def loadAt (r : RewindReg) : Codes → Option ℕ
  | [] => none
  | c :: codes =>
    match c.op with
    | .push r' => if restores r'.number = some r then some (Codes.size codes) else loadAt r codes
    | _ => loadAt r codes

/-- A register is loaded from a place where it was saved, or it is neither saved nor loaded. -/
def Restored (codes : Codes) (r : RewindReg) : Prop :=
  match loadAt r codes with
  | none => depths r.toReg codes = []
  | some s => codes.size - s ∈ depths r.toReg codes

instance (codes : Codes) (r : RewindReg) : Decidable (Restored codes r) := by
  unfold Restored
  split <;> infer_instance

/-! ### The encoding -/

theorem codeOffset_unwindWord (offset : UInt8) (op info : ℕ) :
    codeOffset (unwindWord offset op info) = offset.toNat := by
  have := offset.toNat_lt
  simp only [codeOffset, unwindWord, UInt16.toNat_ofNat']
  omega

theorem unwindOp_unwindWord (offset : UInt8) (info : ℕ) (hop : op < 16) :
    unwindOp (unwindWord offset op info) = op := by
  have := offset.toNat_lt
  simp only [unwindOp, unwindWord, UInt16.toNat_ofNat']
  omega

theorem opInfo_unwindWord (offset : UInt8) {info : ℕ} (hop : op < 16) (hinfo : info < 16) :
    opInfo (unwindWord offset op info) = info := by
  have := offset.toNat_lt
  simp only [opInfo, unwindWord, UInt16.toNat_ofNat']
  omega

theorem advance_slots {c : PrologInstr} {code : ℕ → UInt16}
    (hcode : ∀ i (h : i < c.slots.length), code i = c.slots[i]) :
    advance code = c.op.size ∧ codeOffset (code 0) = c.offset.toNat := by
  obtain ⟨op, offset⟩ := c
  cases op with
  | push r =>
    have h0 := hcode 0 (by simp [PrologInstr.slots])
    simp only [PrologInstr.slots, getElem_cons_zero] at h0
    simp [advance, h0, unwindOp_unwindWord, codeOffset_unwindWord, PrologOp.size]
  | allocSmall info =>
    have h0 := hcode 0 (by simp [PrologInstr.slots])
    simp only [PrologInstr.slots, getElem_cons_zero] at h0
    simp [advance, h0, unwindOp_unwindWord, codeOffset_unwindWord, opInfo_unwindWord,
      PrologOp.size]
  | allocLarge slot =>
    have h0 := hcode 0 (by simp [PrologInstr.slots])
    have h1 := hcode 1 (by simp [PrologInstr.slots])
    simp only [PrologInstr.slots, getElem_cons_zero, getElem_cons_succ] at h0 h1
    simp [advance, h0, h1, unwindOp_unwindWord, codeOffset_unwindWord, PrologOp.size]

/-- The codes of a prologue begin with those of its last operation. -/
structure Reads (code : ℕ → UInt16) (rva : UInt32) (codes : Codes) : Prop where
  code : ∀ i (h : i < codes.slots.length), code i = codes.slots[i]
  offset_le : ∀ c ∈ codes, c.offset.toNat ≤ rva.toNat

section Codes

variable {mem : UInt64 → UInt8} {rva : UInt32} {code : ℕ → UInt16} {c : PrologInstr}
  {codes : Codes}

theorem slots_cons (c : PrologInstr) (codes : Codes) :
    Codes.slots (c :: codes) = c.slots ++ codes.slots := by
  simp [Codes.slots]

theorem size_cons (c : PrologInstr) (codes : Codes) :
    Codes.size (c :: codes) = c.op.size + codes.size := by
  simp [Codes.size]

theorem Reads.first (h : Reads code rva (c :: codes)) :
    ∀ i (h : i < c.slots.length), code i = c.slots[i] := by
  intro i hi
  have := h.code i (by rw [slots_cons, length_append]; omega)
  simpa [slots_cons, getElem_append_left hi] using this

theorem Reads.rest (h : Reads code rva (c :: codes)) :
    Reads (fun k => code (c.slots.length + k)) rva codes where
  code := by
    intro i hi
    have := h.code (c.slots.length + i) (by rw [slots_cons, length_append]; omega)
    simpa [slots_cons] using this
  offset_le := fun c' hc' => h.offset_le c' (mem_cons_of_mem _ hc')

theorem rewindCodes_add (mem : UInt64 → UInt8) (rva : UInt32) (code : ℕ → UInt16) (a n : ℕ)
    (st : RewindState) : rewindCodes mem rva code (a + n) st =
      rewindCodes mem rva code a (rewindCodes mem rva (fun k => code (a + k)) n st) := by
  induction n generalizing st with
  | zero => rfl
  | succ n ih =>
    rw [← Nat.add_assoc, rewindCodes, ih, rewindCodes]
    simp only [Nat.add_assoc]

theorem rewindCodes_slots (mem : UInt64 → UInt8) (rva : UInt32) (code : ℕ → UInt16)
    (c : PrologInstr) (st : RewindState) :
    rewindCodes mem rva code c.slots.length st = rewindCode mem rva code
      (match c.op with
        | .allocLarge _ => rewindCode mem rva (fun k => code (1 + k)) st
        | _ => st) := by
  obtain ⟨op, offset⟩ := c
  cases op <;> simp [PrologInstr.slots, rewindCodes]

/-- **The pointer** moves by the size of the prologue and by what the second slots add. -/
theorem rewindCodes_rsp (mem : UInt64 → UInt8) (h : Reads code rva codes) (st : RewindState) :
    (rewindCodes mem rva code codes.slots.length st).rsp =
      st.rsp + .ofNat (codes.size + operandMoves rva codes code) := by
  induction codes generalizing code st with
  | nil => simp [Codes.slots, Codes.size, operandMoves, rewindCodes]
  | cons c codes ih =>
    obtain ⟨hadvance, hoffset⟩ := advance_slots h.first
    have hle := h.offset_le c mem_cons_self
    have hmoves : moves rva code = c.op.size := by
      rw [moves, if_neg (by omega), hadvance]
    rw [slots_cons, length_append, rewindCodes_add, rewindCodes_slots, rewindCode_rsp, hmoves,
      size_cons, operandMoves]
    cases c.op with
    | allocLarge slot =>
      simp only [rewindCode_rsp, ih h.rest, UInt64.ofNat_add]
      grind
    | push r =>
      simp only [ih h.rest, UInt64.ofNat_add]
      grind
    | allocSmall info =>
      simp only [ih h.rest, UInt64.ofNat_add]
      grind

theorem rewindCode_push_regs {r : Reg} {offset : UInt8} (st : RewindState)
    (h : Reads code rva (⟨.push r, offset⟩ :: codes)) (r' : RewindReg) :
    (rewindCode mem rva code st).regs r' =
      if restores r.number = some r' then read64 mem st.rsp else st.regs r' := by
  have h0 := h.first 0 (by simp [PrologInstr.slots])
  simp only [PrologInstr.slots, getElem_cons_zero] at h0
  have hinfo : opInfo (code 0) = r.number := by
    rw [h0, opInfo_unwindWord _ (by decide) (by cases r <;> decide)]
  have hop : unwindOp (code 0) = 0 := by rw [h0, unwindOp_unwindWord _ _ (by decide)]
  have hle := h.offset_le _ mem_cons_self
  have hskip : ¬codeOffset (code 0) > rva.toNat := by
    rw [h0, codeOffset_unwindWord]
    exact Nat.not_lt.mpr hle
  rw [rewindCode, if_neg hskip, doRewindOnceStep, hop, hinfo]
  simp only [RewindState.restore]
  cases restores r.number with
  | none => simp
  | some r1 =>
    by_cases heq : r' = r1
    · simp [heq]
    · simp [heq, Ne.symm heq]

theorem rewindCode_alloc_regs (st : RewindState) (h : Reads code rva (c :: codes))
    (hc : ∀ r, c.op ≠ .push r) : (rewindCode mem rva code st).regs = st.regs := by
  have hop : unwindOp (code 0) = 1 ∨ unwindOp (code 0) = 2 := by
    obtain ⟨op, offset⟩ := c
    have h0 := h.first 0 (by cases op <;> simp [PrologInstr.slots])
    cases op with
    | push r => exact absurd rfl (hc r)
    | allocSmall info =>
      right
      simp only [PrologInstr.slots, getElem_cons_zero] at h0
      rw [h0, unwindOp_unwindWord _ _ (by decide)]
    | allocLarge slot =>
      left
      simp only [PrologInstr.slots, getElem_cons_zero] at h0
      rw [h0, unwindOp_unwindWord _ _ (by decide)]
  rw [rewindCode, doRewindOnceStep]
  split
  · rfl
  · rcases hop with hop | hop
    · simp only [hop]
    · simp only [hop]

/-- **The registers.** When the second slots do nothing, each register is loaded last at the code
that `loadAt` says, or it keeps its value. -/
theorem rewindCodes_regs (mem : UInt64 → UInt8) (h : Reads code rva codes)
    (hquiet : operandMoves rva codes code = 0)
    (st : RewindState) (r : RewindReg) :
    (rewindCodes mem rva code codes.slots.length st).regs r =
      match loadAt r codes with
      | none => st.regs r
      | some s => read64 mem (st.rsp + .ofNat s) := by
  induction codes generalizing code st with
  | nil => rfl
  | cons c codes ih =>
    rw [operandMoves, Nat.add_eq_zero_iff] at hquiet
    have hrsp := rewindCodes_rsp mem h.rest st
    rw [hquiet.2, Nat.add_zero] at hrsp
    have ih := ih h.rest hquiet.2 st
    rw [slots_cons, length_append, rewindCodes_add, rewindCodes_slots]
    obtain ⟨op, offset⟩ := c
    cases op with
    | push r' =>
      simp only [rewindCode_push_regs _ h, loadAt, hrsp, ih]
      split_ifs <;> rfl
    | allocSmall info =>
      simp only [rewindCode_alloc_regs _ h (by simp), loadAt, ih]
    | allocLarge slot =>
      simp only [rewindCode_of_moves hquiet.1, rewindCode_alloc_regs _ h (by simp), loadAt, ih]

theorem size_le (codes : Codes) : codes.size ≤ 2 ^ 20 * codes.slots.length := by
  induction codes with
  | nil => simp [Codes.size]
  | cons c codes ih =>
    have hc : c.op.size ≤ 2 ^ 20 * c.slots.length := by
      obtain ⟨op, offset⟩ := c
      cases op with
      | push r => simp [PrologOp.size, PrologInstr.slots]
      | allocSmall info =>
        simp only [PrologOp.size, PrologInstr.slots, length_singleton]
        omega
      | allocLarge slot =>
        have := slot.toNat_lt
        simp only [PrologOp.size, PrologInstr.slots, length_cons, length_nil]
        omega
    rw [size_cons, slots_cons, length_append]
    omega

theorem operandMoves_le (rva : UInt32) (codes : Codes) (code : ℕ → UInt16) :
    operandMoves rva codes code ≤ 2 ^ 32 * codes.slots.length := by
  induction codes generalizing code with
  | nil => simp [operandMoves]
  | cons c codes ih =>
    have ih := ih fun k => code (c.slots.length + k)
    have hc : (match c.op with
        | .allocLarge _ => moves rva fun k => code (1 + k)
        | _ => 0) ≤ 2 ^ 32 * c.slots.length := by
      obtain ⟨op, offset⟩ := c
      cases op with
      | push r => simp
      | allocSmall info => simp
      | allocLarge slot =>
        have := moves_le rva fun k => code (1 + k)
        simp only [PrologInstr.slots, length_cons, length_nil]
        omega
    rw [operandMoves, slots_cons, length_append]
    omega

end Codes

/-! ### The prologue and its places -/

section Memory

variable {mem : UInt64 → UInt8} {a : UInt64}

theorem read64_write64_self (mem : UInt64 → UInt8) (a x : UInt64) :
    read64 (write64 mem a x) a = x := by
  have hbytes : leNat 8 (fun i => write64 mem a x (a + .ofNat i)) = leNat 8 (leByte x.toNat) := by
    refine leNat_congr fun i hi => ?_
    have hsub : (a + UInt64.ofNat i - a).toNat = i := by
      rw [show a + UInt64.ofNat i - a = UInt64.ofNat i by grind, UInt64.toNat_ofNat']
      omega
    simp only [write64, hsub, if_pos hi]
  have hx := x.toNat_lt
  rw [read64, hbytes, leNat_leByte, Nat.mod_eq_of_lt (by omega), UInt64.ofNat_toNat]

theorem read64_write64_of_le (hd : 8 ≤ d) (hd' : d + 8 ≤ 2 ^ 64) (mem : UInt64 → UInt8)
    (a x : UInt64) : read64 (write64 mem a x) (a + .ofNat d) = read64 mem (a + .ofNat d) := by
  refine congrArg UInt64.ofNat (leNat_congr fun i hi => ?_)
  have hsub : (a + UInt64.ofNat d + UInt64.ofNat i - a).toNat = d + i := by
    rw [show a + UInt64.ofNat d + UInt64.ofNat i - a = UInt64.ofNat (d + i) by
      rw [UInt64.ofNat_add]; grind, UInt64.toNat_ofNat']
    omega
  simp only [write64, hsub, if_neg (show ¬d + i < 8 by omega)]

theorem ofNat_eq_add {e : ℕ} (h : d ≤ e) : UInt64.ofNat e = .ofNat d + .ofNat (e - d) := by
  rw [← UInt64.ofNat_add, Nat.add_sub_cancel' h]

theorem read64_write64_of_depth_ne {e : ℕ} (hd : d % 8 = 0) (he : e % 8 = 0) (hne : d ≠ e)
    (hlt : d < 2 ^ 63) (hlt' : e < 2 ^ 63) (mem : UInt64 → UInt8) (a x : UInt64) :
    read64 (write64 mem (a - .ofNat e) x) (a - .ofNat d) = read64 mem (a - .ofNat d) := by
  rcases Nat.lt_or_gt_of_ne hne with h | h
  · have haddr : a - UInt64.ofNat d = a - UInt64.ofNat e + .ofNat (e - d) := by
      rw [ofNat_eq_add h.le]
      grind
    rw [haddr]
    exact read64_write64_of_le (by omega) (by omega) mem _ x
  · -- the word is below the store, so it is reached going round
    have haddr : a - UInt64.ofNat d = a - UInt64.ofNat e + .ofNat (2 ^ 64 - (d - e)) := by
      have hround : UInt64.ofNat (2 ^ 64 - (d - e)) + UInt64.ofNat (d - e) = 0 := by
        rw [← UInt64.ofNat_add, Nat.sub_add_cancel (by omega)]
        rfl
      rw [ofNat_eq_add h.le]
      grind
    rw [haddr]
    exact read64_write64_of_le (by omega) (by omega) mem _ x

end Memory

section Places

variable {codes : Codes} {entry : Machine}

theorem exec_reverse_cons (c : PrologInstr) (codes : Codes) (entry : Machine) :
    exec (c :: codes).reverse entry = c.op.exec (exec codes.reverse entry) := by
  simp [exec]

theorem exec_regs (codes : Codes) (entry : Machine) :
    (exec codes.reverse entry).regs = entry.regs := by
  induction codes with
  | nil => rfl
  | cons c codes ih =>
    rw [exec_reverse_cons, ← ih]
    cases c.op <;> rfl

theorem exec_rsp (codes : Codes) (entry : Machine) :
    (exec codes.reverse entry).rsp = entry.rsp - .ofNat codes.size := by
  induction codes with
  | nil => simp [exec, Codes.size]
  | cons c codes ih =>
    have hstep : (c.op.exec (exec codes.reverse entry)).rsp =
        (exec codes.reverse entry).rsp - .ofNat c.op.size := by
      cases c.op <;> rfl
    rw [exec_reverse_cons, hstep, ih, size_cons, UInt64.ofNat_add]
    grind

theorem size_mod (codes : Codes) : codes.size % 8 = 0 := by
  induction codes with
  | nil => rfl
  | cons c codes ih =>
    have hc : c.op.size % 8 = 0 := by
      cases c.op <;> simp [PrologOp.size]
    rw [size_cons]
    omega

theorem depth_le {r : Reg} (hd : d ∈ depths r codes) : d ≤ codes.size ∧ d % 8 = 0 := by
  induction codes with
  | nil => cases hd
  | cons c codes ih =>
    rw [depths] at hd
    have hmod := size_mod (c :: codes)
    have hsize := size_cons c codes
    split_ifs at hd
    · rcases mem_cons.mp hd with rfl | hd
      · exact ⟨le_rfl, hmod⟩
      · have := ih hd
        omega
    · have := ih hd
      omega

theorem depths_unique {r r' : Reg} (h : d ∈ depths r codes) (h' : d ∈ depths r' codes) :
    r = r' := by
  induction codes with
  | nil => cases h
  | cons c codes ih =>
    rw [depths] at h h'
    have hsize := size_cons c codes
    -- the place of the last push is below all others
    have hlast : ∀ {r r'}, c.op = .push r → d = Codes.size (c :: codes) →
        d ∉ depths r' codes := by
      intro r r' hop heq hmem
      rw [hop] at hsize
      have := (depth_le hmem).1
      simp only [PrologOp.size] at hsize
      omega
    split_ifs at h h' with hop hop'
    · exact PrologOp.push.inj (hop.symm.trans hop')
    · rcases mem_cons.mp h with heq | h
      · exact absurd h' (hlast hop heq)
      · exact ih h h'
    · rcases mem_cons.mp h' with heq | h'
      · exact absurd h (hlast ‹_› heq)
      · exact ih h h'
    · exact ih h h'

/-- **The words below the entry** after the prologue: a register where it was pushed, and what was
there before everywhere else. -/
theorem read64_exec (entry : Machine) (hsize : codes.size < 2 ^ 63) (hd : d % 8 = 0)
    (hlt : d < 2 ^ 63) :
    (∃ r, d ∈ depths r codes ∧
      read64 (exec codes.reverse entry).mem (entry.rsp - .ofNat d) = entry.regs r) ∨
    (∀ r, d ∉ depths r codes) ∧
      read64 (exec codes.reverse entry).mem (entry.rsp - .ofNat d) =
        read64 entry.mem (entry.rsp - .ofNat d) := by
  induction codes with
  | nil => exact .inr ⟨by simp [depths], rfl⟩
  | cons c codes ih =>
    rw [size_cons] at hsize
    have ih := ih (by omega)
    rw [exec_reverse_cons]
    cases hop : c.op with
    | push r =>
      have hrsp : (exec codes.reverse entry).rsp - 8 =
          entry.rsp - .ofNat (Codes.size (c :: codes)) := by
        rw [exec_rsp, size_cons, hop, UInt64.ofNat_add]
        simp only [PrologOp.size]
        grind
      simp only [PrologOp.exec, hrsp, exec_regs]
      by_cases heq : d = Codes.size (c :: codes)
      · left
        refine ⟨r, ?_, ?_⟩
        · rw [depths, if_pos hop, heq]
          exact mem_cons_self
        · rw [heq, read64_write64_self]
      · have hsize' := size_cons c codes
        rw [read64_write64_of_depth_ne hd (size_mod _) heq hlt (by omega)]
        have hmem : ∀ r', d ∈ depths r' (c :: codes) ↔ d ∈ depths r' codes := by
          intro r'
          rw [depths]
          split_ifs
          · simp [heq]
          · rfl
        simpa only [hmem] using ih
    | allocSmall info => simpa [PrologOp.exec, depths, hop] using ih
    | allocLarge slot => simpa [PrologOp.exec, depths, hop] using ih

theorem loadAt_le (h : loadAt r codes = some s) :
    s ≤ codes.size ∧ s % 8 = 0 := by
  induction codes with
  | nil => cases h
  | cons c codes ih =>
    have hsize := size_cons c codes
    rw [loadAt] at h
    split at h
    · split_ifs at h
      · cases h
        exact ⟨by omega, size_mod codes⟩
      · have := ih h
        omega
    · have := ih h
      omega

theorem frame_address {size : ℕ} (hle : s ≤ size) (a : UInt64) :
    a - .ofNat size + .ofNat s = a - .ofNat (size - s) := by
  rw [ofNat_eq_add hle]
  grind

end Places

/-! ## Prologues that are undone -/

section Inverts

variable {info : UnwindInfo} {runFunc : RuntimeFunction} {imageBaseAddr rip : UInt64}
  {prolog : List PrologInstr} {rva : UInt32}

/-- The loop of `do_rewind` from the state behind the prologue on. -/
def rewound (info : UnwindInfo) (prolog : List PrologInstr) (rva : UInt32) (rip : UInt64)
    (m : Machine) : RewindState :=
  rewindCodes m.mem rva info.unwindCode (Codes.slots prolog.reverse).length
    ⟨rip, m.rsp, fun r => m.regs r.toReg⟩

theorem Encodes.reads (h : Encodes info prolog) (hafter : info.sizeOfProlog.toNat ≤ rva.toNat) :
    Reads info.unwindCode rva prolog.reverse where
  code := h.code
  offset_le := fun c hc =>
    (UInt8.le_iff_toNat_le.mp (h.offset_le c (by simpa using hc))).trans hafter

theorem Encodes.size_lt (h : Encodes info prolog) (rva : UInt32) :
    Codes.size prolog.reverse + operandMoves rva prolog.reverse info.unwindCode < 2 ^ 63 := by
  have hcount := h.count
  have hlt := info.countOfCodes.toNat_lt
  have hsize := size_le prolog.reverse
  have hmoves := operandMoves_le rva prolog.reverse info.unwindCode
  omega

theorem Encodes.doRewind (h : Encodes info prolog) (m : Machine) (runFunc : RuntimeFunction)
    (imageBaseAddr rip : UInt64) :
    doRewind m.mem (m.trapFrame rip) info runFunc imageBaseAddr =
      .jumps (rewound info prolog (ripRva rip runFunc imageBaseAddr) rip m) := by
  rw [Seh.doRewind, if_neg (by simp [h.version]), if_neg (by simp [h.flags]), h.count]
  rfl

theorem rsp_eq_iff (h : Encodes info prolog) (hafter : info.sizeOfProlog.toNat ≤ rva.toNat)
    {entry m : Machine} (hm : AfterProlog prolog entry m) :
    (rewound info prolog rva rip m).rsp = entry.rsp ↔
      operandMoves rva prolog.reverse info.unwindCode = 0 := by
  have hlt := h.size_lt rva
  have hrsp : m.rsp = entry.rsp - .ofNat (Codes.size prolog.reverse) := by
    rw [hm.rsp, ← exec_rsp, reverse_reverse]
  rw [rewound, rewindCodes_rsp m.mem (h.reads hafter), hrsp, UInt64.ofNat_add]
  constructor
  · intro heq
    have hzero : UInt64.ofNat (operandMoves rva prolog.reverse info.unwindCode) = 0 := by grind
    have := congrArg UInt64.toNat hzero
    rw [UInt64.toNat_ofNat', Nat.mod_eq_of_lt (by omega)] at this
    exact this
  · intro hzero
    rw [hzero]
    simp

/-- The register that is pushed is 1, everything else on entry is 0. -/
def onlyOne (r : Reg) : Machine :=
  ⟨0, fun r' => if r' = r then 1 else 0, fun _ => 0⟩

theorem AfterProlog.refl (prolog : List PrologInstr) (entry : Machine) :
    AfterProlog prolog entry (exec prolog entry) where
  rsp := rfl
  saved := fun _ _ _ => rfl
  unsaved := by
    intro r _
    have := exec_regs prolog.reverse entry
    rw [reverse_reverse] at this
    rw [this]

theorem AfterProlog.clear (prolog : List PrologInstr) (r : Reg)
    (hsaved : depths r prolog.reverse ≠ []) :
    AfterProlog prolog (onlyOne r) { exec prolog (onlyOne r) with regs := fun _ => 0 } where
  rsp := rfl
  saved := fun _ _ _ => rfl
  unsaved := by
    intro r' hr'
    have hne : r' ≠ r := by
      rintro rfl
      exact hsaved hr'
    simp [onlyOne, hne]

section

variable (h : Encodes info prolog) (hafter : info.sizeOfProlog.toNat ≤ rva.toNat)
  (hquiet : operandMoves rva prolog.reverse info.unwindCode = 0)
include h hafter hquiet

/-- If unwinding always gives the entry state, each register is loaded from its place. -/
theorem Inverts.restored (hrva : rva = ripRva rip runFunc imageBaseAddr)
    (hinverts : Inverts info runFunc imageBaseAddr rip prolog) (r : RewindReg) :
    Restored prolog.reverse r := by
  have hlt := h.size_lt rva
  have hreads := h.reads hafter
  rw [Restored]
  cases hload : loadAt r prolog.reverse with
  | none =>
    by_contra hsaved
    -- the register keeps what the body left in it
    obtain ⟨st, hst, -, hregs⟩ := hinverts _ _ (AfterProlog.clear prolog r.toReg hsaved)
    rw [h.doRewind, ← hrva] at hst
    obtain rfl := Rewind.jumps.inj hst
    have := hregs r
    rw [rewound, rewindCodes_regs _ hreads hquiet, hload] at this
    simp [onlyOne] at this
  | some s =>
    obtain ⟨hle, hmod⟩ := loadAt_le hload
    have hsize := size_mod prolog.reverse
    by_contra hnot
    obtain ⟨st, hst, -, hregs⟩ := hinverts _ _ (AfterProlog.refl prolog (onlyOne r.toReg))
    rw [h.doRewind, ← hrva] at hst
    obtain rfl := Rewind.jumps.inj hst
    have hone := hregs r
    have hrsp := exec_rsp prolog.reverse (onlyOne r.toReg)
    rw [reverse_reverse] at hrsp
    rw [rewound, rewindCodes_regs _ hreads hquiet, hload] at hone
    simp only [hrsp, frame_address hle] at hone
    -- the word loaded is the 1 only where the register itself was pushed
    have hbound : Codes.size prolog.reverse < 2 ^ 63 := by omega
    have hword := read64_exec (onlyOne r.toReg) hbound
      (show (Codes.size prolog.reverse - s) % 8 = 0 by omega) (by omega)
    rw [reverse_reverse, hone] at hword
    rcases hword with ⟨r', hmem, hr'⟩ | ⟨-, hzero⟩
    · by_cases heq : r' = r.toReg
      · exact hnot (heq ▸ hmem)
      · simp [onlyOne, heq] at hr'
    · have h0 : read64 (onlyOne r.toReg).mem
          ((onlyOne r.toReg).rsp - .ofNat (Codes.size prolog.reverse - s)) = 0 := by
        simp [read64, onlyOne, leNat]
      rw [h0] at hzero
      simp [onlyOne] at hzero

theorem Restored.regs_eq {entry m : Machine} (hm : AfterProlog prolog entry m)
    (hr : Restored prolog.reverse r) :
    (rewound info prolog rva rip m).regs r = entry.regs r.toReg := by
  have hlt := h.size_lt rva
  rw [rewound, rewindCodes_regs _ (h.reads hafter) hquiet]
  rw [Restored] at hr
  cases hload : loadAt r prolog.reverse with
  | none =>
    rw [hload] at hr
    exact hm.unsaved _ hr
  | some s =>
    rw [hload] at hr
    obtain ⟨hle, -⟩ := loadAt_le hload
    obtain ⟨-, hmod⟩ := depth_le hr
    have hrsp := exec_rsp prolog.reverse entry
    rw [reverse_reverse] at hrsp
    simp only [hm.rsp, hrsp, frame_address hle, hm.saved _ _ hr]
    have hbound : Codes.size prolog.reverse < 2 ^ 63 := by omega
    have hword := read64_exec entry hbound hmod (by omega)
    rw [reverse_reverse] at hword
    rcases hword with ⟨r', hmem, hr'⟩ | ⟨hnone, -⟩
    · rw [hr', depths_unique hmem hr]
    · exact absurd hr (hnone _)

end

/-- **The prologues that are undone**, for every entry and every body: the second slots of large
allocations do nothing as codes, and each register of the unwinder is loaded last from a place where
it was saved, or is neither saved nor loaded. -/
theorem inverts_iff (h : Encodes info prolog)
    (hafter : info.sizeOfProlog.toNat ≤ (ripRva rip runFunc imageBaseAddr).toNat) :
    Inverts info runFunc imageBaseAddr rip prolog ↔
      operandMoves (ripRva rip runFunc imageBaseAddr) prolog.reverse info.unwindCode = 0 ∧
      ∀ r, Restored prolog.reverse r := by
  constructor
  · intro hinverts
    have hquiet : operandMoves (ripRva rip runFunc imageBaseAddr) prolog.reverse
        info.unwindCode = 0 := by
      have hm := AfterProlog.refl prolog (onlyOne .rbx)
      obtain ⟨st, hst, hrsp, -⟩ := hinverts _ _ hm
      rw [h.doRewind] at hst
      obtain rfl := Rewind.jumps.inj hst
      exact (rsp_eq_iff h hafter hm).mp hrsp
    exact ⟨hquiet, Inverts.restored h hafter hquiet rfl hinverts⟩
  · rintro ⟨hquiet, hrestored⟩ entry m hm
    refine ⟨_, h.doRewind m runFunc imageBaseAddr rip, (rsp_eq_iff h hafter hm).mpr hquiet, ?_⟩
    intro r
    exact (hrestored r).regs_eq h hafter hquiet hm

end Inverts

/-! ## Two prologues -/

def infoOf (sizeOfProlog : UInt8) (codes : List UInt16) : UnwindInfo :=
  ⟨1, 0, sizeOfProlog, .ofNat codes.length, fun i => codes.getD i 0⟩

/-- Push `rbx` and allocate 8 bytes, then push `rbx` again: what is loaded mirrors what was
saved. -/
theorem inverts_iff_mirror :
    Inverts (infoOf 6 (Codes.slots [⟨.push .rbx, 6⟩, ⟨.allocSmall 0, 5⟩, ⟨.push .rbx, 1⟩]))
      ⟨0x1000⟩ 0x400000 0x401010
      [⟨.push .rbx, 1⟩, ⟨.allocSmall 0, 5⟩, ⟨.push .rbx, 6⟩] := by
  refine (inverts_iff ⟨rfl, rfl, by decide, ?_, by decide⟩ (by decide)).mpr ⟨by decide, ?_⟩
  · decide
  · intro r
    cases r <;> decide

/-- The prologue pushes `rbx` and then `r12`. -/
def pushTwo : List PrologInstr :=
  [⟨.push .rbx, 1⟩, ⟨.push .r12, 3⟩]

/-- On entry 1 is in `rbx` and 2 in `r12`. -/
def oneAndTwo : Machine :=
  ⟨0x8000, fun r => if r = .rbx then 1 else if r = .r12 then 2 else 0, fun _ => 0⟩

/-- **Two registers are exchanged**: unwinding finds 2 in `rbx` and 1 in `r12`. -/
theorem rewind_swaps_registers :
    Encodes (infoOf 3 (Codes.slots pushTwo.reverse)) pushTwo ∧
    AfterProlog pushTwo oneAndTwo (exec pushTwo oneAndTwo) ∧
    (∃ st, doRewind (exec pushTwo oneAndTwo).mem ((exec pushTwo oneAndTwo).trapFrame 0x401010)
        (infoOf 3 (Codes.slots pushTwo.reverse)) ⟨0x1000⟩ 0x400000 = .jumps st ∧
      st.rsp = oneAndTwo.rsp ∧ st.regs .rbx = 2 ∧ st.regs .r12 = 1) ∧
    ¬Inverts (infoOf 3 (Codes.slots pushTwo.reverse)) ⟨0x1000⟩ 0x400000 0x401010 pushTwo := by
  have hencodes : Encodes (infoOf 3 (Codes.slots pushTwo.reverse)) pushTwo :=
    ⟨rfl, rfl, by decide, by decide, by decide⟩
  have hafter := AfterProlog.refl pushTwo oneAndTwo
  have hjump := hencodes.doRewind (exec pushTwo oneAndTwo) ⟨0x1000⟩ 0x400000 0x401010
  refine ⟨hencodes, hafter, ⟨_, hjump, by decide, by decide, by decide⟩, ?_⟩
  intro hinverts
  obtain ⟨st, hst, -, hregs⟩ := hinverts _ _ hafter
  obtain rfl := Rewind.jumps.inj hst
  exact absurd (hregs .rbx) (by decide)

end CarrotOS.Seh
