import CarrotOS.Lib.Bytes
import Mathlib.Tactic.IntervalCases

/-!
# The unwinder of the exception dispatcher

`do_rewind` goes through the unwind codes of a function from the end of the array to its beginning
and applies each to a copy of the registers. A code moves the stack pointer by an amount that stands
in the array, and some codes load a register from where the pointer stands.
-/

namespace CarrotOS.Seh

open Bytes

/-! ## The unwinder -/

/-- The registers of `struct rewind_state` besides `rip` and `rsp`. -/
inductive RewindReg where
  | rbx | rdi | rsi | r12 | r13 | r14 | r15
  deriving DecidableEq, Repr

structure RewindState where
  rip : UInt64
  rsp : UInt64
  regs : RewindReg → UInt64

/-- What `do_rewind` reads of `struct trap_frame`. -/
structure TrapFrame where
  rip : UInt64
  rsp : UInt64
  regs : RewindReg → UInt64

/-- What `do_rewind` reads of `struct runtime_function`, besides the address of the unwind data. -/
structure RuntimeFunction where
  beginAddress : UInt32

/-- `struct unwind_info`. `unwindCode` are the 16-bit words from the first code on, those behind the
array included. -/
structure UnwindInfo where
  version : ℕ
  flags : ℕ
  sizeOfProlog : UInt8
  countOfCodes : UInt8
  unwindCode : ℕ → UInt16

def codeOffset (code : UInt16) : ℕ :=
  code.toNat % 256

/-- `UnwindOp`, the low half of the high byte. -/
def unwindOp (code : UInt16) : ℕ :=
  code.toNat / 256 % 16

/-- `OpInfo`, the high half of the high byte. -/
def opInfo (code : UInt16) : ℕ :=
  code.toNat / 4096

def read64 (mem : UInt64 → UInt8) (addr : UInt64) : UInt64 :=
  .ofNat (leNat 8 fun i => mem (addr + .ofNat i))

/-- The inner `switch`: the register that an `OpInfo` stands for. -/
def restores : ℕ → Option RewindReg
  | 3 => some .rbx
  | 5 => some .rsi
  | 6 => some .rdi
  | 12 => some .r12
  | 13 => some .r13
  | 14 => some .r14
  | 15 => some .r15
  | _ => none

/-- The inner `switch`: the value goes to the register of the code. -/
def RewindState.restore (st : RewindState) (info : ℕ) (val : UInt64) : RewindState :=
  match restores info with
  | none => st
  | some r => { st with regs := Function.update st.regs r val }

/-- `do_rewind_once_step` for the code `code 0`, with the words behind it. -/
def doRewindOnceStep (mem : UInt64 → UInt8) (code : ℕ → UInt16) (st : RewindState) : RewindState :=
  match unwindOp (code 0) with
  | 0 => { st.restore (opInfo (code 0)) (read64 mem st.rsp) with rsp := st.rsp + 8 }
  | 1 => { st with rsp := st.rsp + .ofNat ((code 1).toNat * 8) }
  | 2 => { st with rsp := st.rsp + .ofNat (opInfo (code 0) * 8 + 8) }
  | 3 =>
    { st with
      rsp := st.rsp + .ofNat (if opInfo (code 0) = 0 then (code 1).toNat * 8
        else (code 1).toNat + 65536 * (code 2).toNat) }
  | 4 => { st.restore (opInfo (code 0)) (read64 mem st.rsp) with rsp := st.rsp + 8 }
  | 5 =>
    { st.restore (opInfo (code 0)) (read64 mem st.rsp) with
      rip := read64 mem st.rsp
      rsp := st.rsp + 8 }
  | 8 => { st with rsp := st.rsp + 16 }
  | 9 => { st with rsp := st.rsp + 16 }
  | 10 => { st with rsp := st.rsp + .ofNat (if opInfo (code 0) % 2 = 1 then 8 * 9 else 8 * 7) }
  | _ => st

/-- One turn of the loop of `do_rewind`. -/
def rewindCode (mem : UInt64 → UInt8) (ripRva : UInt32) (code : ℕ → UInt16) (st : RewindState) :
    RewindState :=
  if codeOffset (code 0) > ripRva.toNat then st else doRewindOnceStep mem code st

/-- The loop of `do_rewind` over the codes below `n`, from the last one down. -/
def rewindCodes (mem : UInt64 → UInt8) (ripRva : UInt32) (code : ℕ → UInt16) :
    ℕ → RewindState → RewindState
  | 0, st => st
  | i + 1, st =>
    rewindCodes mem ripRva code i (rewindCode mem ripRva (fun k => code (i + k)) st)

/-- How `do_rewind` ends: it returns at once, it loops for ever, or it jumps to a state. -/
inductive Rewind where
  | returns
  | loops
  | jumps (state : RewindState)

/-- The offset of `rip` in the function, as a word of 32 bits. -/
def ripRva (rip : UInt64) (runFunc : RuntimeFunction) (imageBaseAddr : UInt64) : UInt32 :=
  (rip - imageBaseAddr - runFunc.beginAddress.toUInt64).toUInt32

/-- `do_rewind`, with the unwind data `info` of the function. Following a chain never ends: the loop
goes back to the same unwind data. -/
def doRewind (mem : UInt64 → UInt8) (tf : TrapFrame) (info : UnwindInfo) (runFunc : RuntimeFunction)
    (imageBaseAddr : UInt64) : Rewind :=
  if info.version ≠ 1 then .returns
  else if info.flags &&& 4 ≠ 0 then .loops
  else
    .jumps (rewindCodes mem (ripRva tf.rip runFunc imageBaseAddr) info.unwindCode
      info.countOfCodes.toNat ⟨tf.rip, tf.rsp, tf.regs⟩)

/-! ## Chained unwind data -/

/-- The word of 32 bits at the code `i`. -/
def UnwindInfo.word (info : UnwindInfo) (i : ℕ) : UInt32 :=
  .ofNat ((info.unwindCode i).toNat + 65536 * (info.unwindCode (i + 1)).toNat)

/-- The passes of `do_rewind` through `restart_unwind`, `fuel` at most. A pass that follows a chain
sets `run_func` to the function behind the codes, and leaves `unwind_info_ptr`. -/
def restartUnwind (mem : UInt64 → UInt8) (rva : UInt32) (info : UnwindInfo) (st : RewindState) :
    ℕ → RuntimeFunction → Option RewindState
  | 0, _ => none
  | fuel + 1, _ =>
    if info.flags &&& 4 ≠ 0 then
      restartUnwind mem rva info st fuel ⟨info.word info.countOfCodes.toNat⟩
    else some (rewindCodes mem rva info.unwindCode info.countOfCodes.toNat st)

/-- `do_rewind` comes to its jump after a finite number of passes. -/
def ReachesJump (mem : UInt64 → UInt8) (tf : TrapFrame) (info : UnwindInfo)
    (runFunc : RuntimeFunction) (imageBaseAddr : UInt64) : Prop :=
  ∃ fuel st, restartUnwind mem (ripRva tf.rip runFunc imageBaseAddr) info
    ⟨tf.rip, tf.rsp, tf.regs⟩ fuel runFunc = some st ∧
    doRewind mem tf info runFunc imageBaseAddr = .jumps st

/-- The chain from the unwind data on is finite: `image` has the data at an address of the image,
and the address of the next ones stands in the function behind the codes. -/
inductive ChainEnds (image : UInt32 → UnwindInfo) : UnwindInfo → Prop
  | last {info : UnwindInfo} : info.flags &&& 4 = 0 → ChainEnds image info
  | next {info : UnwindInfo} : info.flags &&& 4 ≠ 0 →
    ChainEnds image (image (info.word (info.countOfCodes.toNat + 4))) → ChainEnds image info

section Chain

variable {mem : UInt64 → UInt8} {tf : TrapFrame} {info : UnwindInfo} {runFunc : RuntimeFunction}
  {imageBaseAddr : UInt64}

theorem restartUnwind_of_chained (h : info.flags &&& 4 ≠ 0) (rva : UInt32) (st : RewindState)
    (fuel : ℕ) : restartUnwind mem rva info st fuel runFunc = none := by
  induction fuel generalizing runFunc with
  | zero => rfl
  | succ fuel ih => rw [restartUnwind, if_pos h, ih]

/-- **The jump is reached exactly without the chained flag.** -/
theorem reachesJump_iff (hversion : info.version = 1) :
    ReachesJump mem tf info runFunc imageBaseAddr ↔ info.flags &&& 4 = 0 := by
  constructor
  · rintro ⟨fuel, st, h, -⟩
    by_contra hchained
    rw [restartUnwind_of_chained hchained] at h
    cases h
  · intro h
    exact ⟨1, _, if_neg (not_not.mpr h), by simp [doRewind, hversion, h]⟩

end Chain

def chainedInfo (flags : ℕ) : UnwindInfo := ⟨1, flags, 0, 0, fun _ => 0⟩

/-- Data with two codes and the flags of both handlers, and the same data with a chain. -/
theorem reachesJump_iff_unchained :
    ReachesJump (fun _ => 0) ⟨0, 0, fun _ => 0⟩ ⟨1, 3, 0, 2, fun _ => 0⟩ ⟨0⟩ 0 ∧
      ¬ReachesJump (fun _ => 0) ⟨0, 0, fun _ => 0⟩ ⟨1, 7, 0, 2, fun _ => 0⟩ ⟨0⟩ 0 :=
  ⟨(reachesJump_iff rfl).mpr rfl, fun h => absurd ((reachesJump_iff rfl).mp h) (by decide)⟩

/-- **A chain of two infos**, which is not followed. -/
theorem chain_not_followed : ChainEnds (fun _ => chainedInfo 0) (chainedInfo 4) ∧
    (chainedInfo 4).version = 1 ∧
    ¬ReachesJump (fun _ => 0) ⟨0, 0, fun _ => 0⟩ (chainedInfo 4) ⟨0⟩ 0 := by
  refine ⟨.next (by decide) (.last rfl), rfl, ?_⟩
  rintro ⟨fuel, st, h, -⟩
  rw [restartUnwind_of_chained (by decide)] at h
  cases h

/-! ## What one code does -/

/-- By how much a code moves the stack pointer. -/
def advance (code : ℕ → UInt16) : ℕ :=
  match unwindOp (code 0) with
  | 0 | 4 | 5 => 8
  | 1 => (code 1).toNat * 8
  | 2 => opInfo (code 0) * 8 + 8
  | 3 =>
    if opInfo (code 0) = 0 then (code 1).toNat * 8 else (code 1).toNat + 65536 * (code 2).toNat
  | 8 | 9 => 16
  | 10 => if opInfo (code 0) % 2 = 1 then 8 * 9 else 8 * 7
  | _ => 0

/-- By how much a word moves the stack pointer when it is not skipped for its offset. -/
def moves (rva : UInt32) (code : ℕ → UInt16) : ℕ :=
  if codeOffset (code 0) > rva.toNat then 0 else advance code

section Code

variable {mem : UInt64 → UInt8} {rva : UInt32} {code : ℕ → UInt16} {st : RewindState}

theorem unwindOp_lt (code : UInt16) : unwindOp code < 16 :=
  Nat.mod_lt _ (by decide)

theorem doRewindOnceStep_rsp (mem : UInt64 → UInt8) (code : ℕ → UInt16) (st : RewindState) :
    (doRewindOnceStep mem code st).rsp = st.rsp + .ofNat (advance code) := by
  have hop := unwindOp_lt (code 0)
  unfold doRewindOnceStep advance
  generalize unwindOp (code 0) = op at hop
  interval_cases op <;> simp

theorem rewindCode_rsp (mem : UInt64 → UInt8) (rva : UInt32) (code : ℕ → UInt16)
    (st : RewindState) :
    (rewindCode mem rva code st).rsp = st.rsp + .ofNat (moves rva code) := by
  unfold rewindCode moves
  split_ifs
  · simp
  · exact doRewindOnceStep_rsp mem code st

theorem rewindCode_of_moves (h : moves rva code = 0) : rewindCode mem rva code st = st := by
  unfold moves at h
  unfold rewindCode
  split_ifs at h ⊢ with hskip
  · rfl
  · have hop := unwindOp_lt (code 0)
    unfold advance at h
    unfold doRewindOnceStep
    generalize unwindOp (code 0) = op at hop h
    interval_cases op <;> simp_all

theorem moves_le (rva : UInt32) (code : ℕ → UInt16) : moves rva code ≤ 2 ^ 32 := by
  have h1 := (code 1).toNat_lt
  have h2 := (code 2).toNat_lt
  have h0 : opInfo (code 0) < 16 := by
    have := (code 0).toNat_lt
    unfold opInfo
    omega
  have hop := unwindOp_lt (code 0)
  unfold moves
  split
  · omega
  · unfold advance
    generalize unwindOp (code 0) = op at hop
    interval_cases op <;> simp only <;> (try split_ifs) <;> omega

end Code

end CarrotOS.Seh
