import CarrotOS.Fs.Descriptor
import CarrotOS.Sched.Session

/-!
# Descriptors and `sys_fork` (`core/syscall/syscall2.h`)

`sys_fork` copies the record of the parent, allocates a second table of descriptors and fills it
with the descriptors of the parent, without its pipes above 2. It never stores the address of that
table: `fd_addr` of the child is the one of the record it was copied from. So parent and child have
one table, and what one of them opens, closes or duplicates the other one finds in its own table.

The tables lie in one memory, at the addresses `fd_addr` of the processes. A call of a process works
on the memory from its `fd_addr` on, as in `FdState`.
-/

namespace CarrotOS

open Word Bytes Transition Function List Option FdState

variable {a block child fd fdAddr fdChild flags parent : ℕ} {path : List UInt8}
  {pids : List ℕ}

open Fat32 (slash)

/-! ## The code -/

@[inherit_doc fileNone]
def filePipe : ℕ := 3

def maxPipesCount : ℕ := 5120

def fdTableSize : ℕ := 20 * 4096

variable {σ : Type}

namespace FdState

/-- `erase_mem8` of one descriptor. -/
def eraseDescriptor (st : FdState σ) (fd : ℕ) : FdState σ :=
  { st with table := blit st.table (sizeofFileInner * fd) sizeofFileInner fun _ => 0 }

/-- The stores of `sys_pipe` to one descriptor. -/
def setPipe (st : FdState σ) (fd pipeId flags : ℕ) : FdState σ :=
  ((st.setField fd 68 4 filePipe).setField fd 72 8 pipeId).setField fd 64 4 flags

/-- `sys_pipe` behind the allocation of the pipe. The search for the second descriptor starts one
byte behind the number of the first one, so that it may find the first one again. -/
def sysPipe (st : FdState σ) (pipeId : ℕ) : Option (FdState σ) := do
  let fdR ← st.getAFreeSlotWithSize 0
  let fdW ← st.getAFreeSlotWithSize (fdR + 1)
  let st := (st.eraseDescriptor fdR).eraseDescriptor fdW
  some ((st.setPipe fdR pipeId oRdonly).setPipe fdW pipeId oWronly)

end FdState

structure FdProcess where
  pid : ℕ
  parentPid : ℕ
  threadsCount : ℕ
  state : ProcessState
  fdAddr : ℕ
  deriving DecidableEq, Repr

/-- The file system, the memory that holds the tables of descriptors, `fd_global` with what its
pointers point to, `pipe_global` and the processes. -/
structure ForkState (σ : Type) where
  vfs : Vfs σ
  devices : ℕ → σ
  mem : ℕ → UInt8
  fdGlobal : ℕ → ℕ
  files : ℕ → GlobalFile
  pipeGlobal : ℕ → ℕ
  processes : ℕ → Option FdProcess

/-- An operation on the table of a process, with what it finds in memory. -/
inductive TableOp where
  | sysOpen (behind : Behind) (accepted : Bool) (path : List UInt8) (flags block : ℕ)
  | sysClose (fd : ℤ)
  | dup2 (oldfd newfd : ℕ)
  | sysPipe (block : ℕ)

/-- The loop of `sys_fork` over the descriptors. -/
def copyDescriptors (fdParent fdChild : ℕ) : ℕ → (ℕ → UInt8) → (ℕ → UInt8)
  | 0, mem => mem
  | i + 1, mem =>
    let mem := copyDescriptors fdParent fdChild i mem
    if i ≤ 2 ∨ (leNat 4 fun b => mem (fdParent + (sizeofFileInner * i + 68 + b))) ≠ filePipe then
      blit mem (fdChild + sizeofFileInner * i) sizeofFileInner fun j =>
        mem (fdParent + (sizeofFileInner * i + j))
    else mem

/-- The table that `sys_fork` makes at `fdChild`. -/
def copyTable (mem : ℕ → UInt8) (fdParent fdChild : ℕ) : ℕ → UInt8 :=
  copyDescriptors fdParent fdChild maxFdInner (blit mem fdChild fdTableSize fun _ => 0)

namespace ForkState

/-- The table at an address, with what all processes share. -/
def view (s : ForkState σ) (fdAddr : ℕ) : FdState σ where
  vfs := s.vfs
  devices := s.devices
  table i := s.mem (fdAddr + i)
  fdGlobal := s.fdGlobal
  files := s.files

/-- What a call leaves that has worked on the table at an address. -/
def put (s : ForkState σ) (fdAddr : ℕ) (st : FdState σ) : ForkState σ :=
  { s with
    vfs := st.vfs
    devices := st.devices
    mem := fun a => if a < fdAddr then s.mem a else st.table (a - fdAddr)
    fdGlobal := st.fdGlobal
    files := st.files }

@[simp] theorem view_put (s : ForkState σ) (fdAddr : ℕ) (st : FdState σ) :
    (s.put fdAddr st).view fdAddr = st := by
  simp [put, view]

/-- `sys_fork`, with the address of the new table. The record of the child is a copy, `fd_addr`
included. -/
def sysFork (s : ForkState σ) (parentPid fdChild : ℕ) : Option (ℕ × ForkState σ) := do
  let parent ← s.processes parentPid
  let childPid ← getAFreeSlot (fun i => (s.processes i).elim 0 fun _ => 1) 1 maxProcessesCount
  some (childPid, { s with
    mem := copyTable s.mem parent.fdAddr fdChild
    processes := update s.processes childPid (some { parent with
      pid := childPid
      parentPid := parent.pid
      threadsCount := 1
      state := .running }) })

/-- The processes are those of a table with groups and sessions. -/
def Matches (s : ForkState σ) (ps : Session.Members) : Prop :=
  ∀ i, (s.processes i).map (fun p => (p.pid, p.parentPid, p.state)) =
    (ps i).map fun p => (p.pid, p.parentPid, p.state)

/-- **The two parts of `sys_fork`** take the same slot and leave tables that match. -/
theorem Matches.sysFork {s s' : ForkState σ} {ps : Session.Members} (h : s.Matches ps)
    (hfork : s.sysFork parent fdChild = some (child, s')) :
    ∃ ps', Session.sysFork ps parent = some (child, ps') ∧ s'.Matches ps' := by
  obtain ⟨p, hp, hrest⟩ := bind_eq_some_iff.mp hfork
  obtain ⟨c, hslot, hresult⟩ := bind_eq_some_iff.mp hrest
  cases hresult
  have hparent := h parent
  rw [hp, map_some] at hparent
  obtain ⟨q, hq, heq⟩ := map_eq_some_iff.mp hparent.symm
  have hwords : (fun i => (ps i).elim 0 fun _ => 1) =
      fun i => (s.processes i).elim 0 fun _ => 1 := by
    funext i
    have hi := h i
    cases hps : ps i <;> cases hs : s.processes i <;> rw [hps, hs] at hi <;> first | rfl | cases hi
  refine ⟨update ps child (some { q with pid := child, parentPid := q.pid, state := .running }),
    ?_, fun i => ?_⟩
  · rw [Session.sysFork, hq, bind_eq_bind, bind_some, hwords, hslot]
    rfl
  · by_cases hi : i = child
    · subst hi
      simp [← (Prod.mk.inj heq).1]
    · simpa [hi] using h i

def step (s : ForkState σ) : ℕ × TableOp → Option (ForkState σ)
  | (pid, op) => do
    let p ← s.processes pid
    if p.fdAddr = 0 then none
    else
      match op with
      | .sysOpen behind accepted path flags block =>
        ((s.view p.fdAddr).sysOpen behind accepted path flags block).map fun e =>
          s.put p.fdAddr e.state
      | .sysClose fd => ((s.view p.fdAddr).sysClose fd).map fun e => s.put p.fdAddr e.state
      | .dup2 oldfd newfd =>
        ((s.view p.fdAddr).dup2 oldfd newfd).map fun e => s.put p.fdAddr e.state
      | .sysPipe block => do
        let pipeId ← getAFreeSlot s.pipeGlobal 0 maxPipesCount
        let st ← (s.view p.fdAddr).sysPipe pipeId
        some { s.put p.fdAddr st with pipeGlobal := update s.pipeGlobal pipeId block }

end ForkState

/-! ## What is to hold -/

/-- Every descriptor is kept. -/
def FdState.SameDescriptors (st st' : FdState σ) : Prop :=
  ∀ n < maxFdInner, st.Copy st' n n

/-- The calls that leave the table as it is: opening a path of `/dev/` or `/sys/` that is no
terminal, or one of `/proc/` that is refused; closing when all bytes erased are zero; duplicating
that fails, or over an equal descriptor in use. A pipe always takes a descriptor. -/
def FdState.Idle (st : FdState σ) : TableOp → Prop
  | .sysOpen _ accepted path _ _ =>
    path.take 8 ≠ devTty ∧ (path.take 6 = procFolder ∧ accepted = false ∨ InEmptyFolder path)
  | .sysClose fd => 0 ≤ fd → ∀ n < maxFdInner, ∀ i < sizeofFileInner,
    Erased fd.toNat (sizeofFileInner * n + i) → st.table (sizeofFileInner * n + i) = 0
  | .dup2 oldfd newfd => st.Copies oldfd newfd → st.type newfd ≠ fileNone ∧ st.Copy st oldfd newfd
  | .sysPipe _ => False

namespace ForkState

def SameTable (s s' : ForkState σ) (pid : ℕ) : Prop :=
  ∃ p p', s.processes pid = some p ∧ s'.processes pid = some p' ∧
    (s.view p.fdAddr).SameDescriptors (s'.view p'.fdAddr)

/-- The descriptors that a child is to have: those of the parent, but a pipe above 2 is free. -/
def Inherits (s s' : ForkState σ) (parent child : ℕ) : Prop :=
  ∃ p q, s.processes parent = some p ∧ s'.processes child = some q ∧ ∀ n < maxFdInner,
    if n ≤ 2 ∨ (s.view p.fdAddr).type n ≠ filePipe then
      (s.view p.fdAddr).Copy (s'.view q.fdAddr) n n
    else (s'.view q.fdAddr).Free n

def NoPipes (s : ForkState σ) (pid : ℕ) : Prop :=
  ∀ p, s.processes pid = some p → ∀ n < maxFdInner, 2 < n → (s.view p.fdAddr).type n ≠ filePipe

def Idle (s : ForkState σ) (c : ℕ × TableOp) : Prop :=
  ∀ p, s.processes c.1 = some p → (s.view p.fdAddr).Idle c.2

/-- The new table lies apart from the tables in use. -/
def FreshTable (s : ForkState σ) (fdChild : ℕ) : Prop :=
  ∀ pid p, s.processes pid = some p →
    fdChild + fdTableSize ≤ p.fdAddr ∨ p.fdAddr + sizeofFileInner * maxFdInner ≤ fdChild

end ForkState

/-! ## The table that is not used -/

section CopyTable

variable {mem : ℕ → UInt8} {fdParent fdChild : ℕ}

theorem copyDescriptors_frame {k : ℕ} (h : a < fdChild ∨ fdChild + sizeofFileInner * k ≤ a) :
    copyDescriptors fdParent fdChild k mem a = mem a := by
  induction k with
  | zero => rfl
  | succ k ih =>
    rw [Nat.mul_succ] at h
    rw [copyDescriptors]
    split
    · rw [blit_of_not_mem _ _ (by omega), ih (by omega)]
    · exact ih (by omega)

theorem copyTable_frame (h : a < fdChild ∨ fdChild + fdTableSize ≤ a) :
    copyTable mem fdParent fdChild a = mem a := by
  have hsize : sizeofFileInner * maxFdInner ≤ fdTableSize := by decide
  rw [copyTable, copyDescriptors_frame (by omega), blit_of_not_mem _ _ h]

end CopyTable

/-! ## One call -/

section OneCall

variable {st st' : FdState σ} {e : FdEffect σ}

theorem sameDescriptors_refl (st : FdState σ) : st.SameDescriptors st :=
  fun n _ => copy_refl st n

theorem type_of_free (h : st.Free fd) : st.type fd = fileNone := by
  have hzero : st.type fd = leNat 4 fun _ => 0 := by
    refine leNat_congr fun i hi => ?_
    rw [Nat.add_assoc]
    exact h (68 + i) (by rw [sizeofFileInner]; omega)
  rw [hzero]
  rfl

theorem not_sameDescriptors_of_type (hlt : fd < maxFdInner) (hfree : st.Free fd)
    (htype : st'.type fd ≠ fileNone) : ¬st.SameDescriptors st' := by
  intro hsame
  exact htype ((hsame fd hlt).type.trans (type_of_free hfree))

theorem sysOpen_same_iff {behind : Behind} {accepted : Bool}
    (h : st.sysOpen behind accepted path flags block = some e) :
    st.SameDescriptors e.state ↔ st.Idle (.sysOpen behind accepted path flags block) := by
  obtain ⟨htty, hrefused, hstate⟩ | ⟨hidle, type, typeNumber, hnumber, h⟩ := sysOpen_cases h
  · rw [hstate]
    exact iff_of_true (sameDescriptors_refl st) ⟨htty, hrefused⟩
  · obtain ⟨fd, hlt, hfree, -, htype, -⟩ := openNew_spec h
    exact iff_of_false (not_sameDescriptors_of_type hlt hfree (htype ▸ hnumber)) hidle

theorem sysClose_same_iff {fd : ℤ} (h : st.sysClose fd = some e) :
    st.SameDescriptors e.state ↔ st.Idle (.sysClose fd) := by
  rw [sysClose] at h
  by_cases hneg : fd < 0
  · rw [if_pos hneg] at h
    cases h
    exact iff_of_true (sameDescriptors_refl st) fun hnonneg => absurd hneg (Int.not_lt.mpr hnonneg)
  · rw [if_neg hneg] at h
    obtain ⟨-, h⟩ := ite_none_left_eq_some.mp h
    obtain ⟨st', hclose, rfl⟩ := map_eq_some_iff.mp h
    obtain rfl := close_eq_some hclose
    have hnonneg := Int.not_lt.mp hneg
    constructor
    · intro hsame _ n hn
      exact copy_closed_iff.mp (hsame n hn)
    · intro hidle n hn
      exact copy_closed_iff.mpr (hidle hnonneg n hn)

theorem dup2_same_iff {oldfd newfd : ℕ} (h : st.dup2 oldfd newfd = some e) :
    st.SameDescriptors e.state ↔ st.Idle (.dup2 oldfd newfd) := by
  obtain ⟨hcopies, hstate, -⟩ | ⟨hcopies, -, hstate⟩ := dup2_cases h
  · rw [hstate]
    exact iff_of_true (sameDescriptors_refl st) fun hc => absurd hc hcopies
  obtain ⟨hold, hnew, hne, htype, -⟩ := id hcopies
  rw [hstate]
  by_cases hnone : st.type newfd = fileNone
  · -- the new descriptor gets the type that the closing has left of the old one
    rw [if_pos hnone]
    refine iff_of_false (fun hsame => htype ?_) fun hidle => (hidle hcopies).1 hnone
    have hcopy : ((st.closed newfd).copyDescriptor oldfd newfd).Copy
        ((st.closed newfd).copyDescriptor oldfd newfd) oldfd newfd := by
      intro i hi
      rw [copy_copyDescriptor (st.closed newfd) oldfd newfd i hi,
        copy_copyDescriptor_of_ne (st.closed newfd) oldfd hne i hi]
    have hequal : ((st.closed newfd).copyDescriptor oldfd newfd).type newfd =
        ((st.closed newfd).copyDescriptor oldfd newfd).type oldfd := by
      rw [type, type, field, field]
      refine leNat_congr fun i hi => ?_
      rw [Nat.add_assoc, Nat.add_assoc]
      exact hcopy (68 + i) (by rw [sizeofFileInner]; omega)
    rw [(hsame newfd hnew).type, (hsame oldfd hold).type] at hequal
    exact hequal.symm.trans hnone
  · rw [if_neg hnone]
    constructor
    · intro hsame _
      refine ⟨hnone, fun i hi => ?_⟩
      rw [← hsame newfd hnew i hi]
      exact copy_copyDescriptor st oldfd newfd i hi
    · intro hidle n hn
      obtain ⟨-, hcopy⟩ := hidle hcopies
      by_cases hn' : n = newfd
      · subst hn'
        intro i hi
        rw [copy_copyDescriptor st oldfd n i hi, hcopy i hi]
      · exact copy_copyDescriptor_of_ne st oldfd hn'

theorem type_setPipe_self (st : FdState σ) (fd pipeId flags : ℕ) :
    (st.setPipe fd pipeId flags).type fd = filePipe := by
  rw [setPipe, type, field_setField_of_disjoint (.inr (by decide)),
    field_setField_of_disjoint (.inl (by decide)), field_setField_self]
  rfl

theorem copy_setPipe {n : ℕ} (hne : n ≠ fd) (pipeId flags : ℕ) :
    st.Copy (st.setPipe fd pipeId flags) n n :=
  ((copy_setField hne (by decide) _).trans (copy_setField hne (by decide) _)).trans
    (copy_setField hne (by decide) _)

theorem sysPipe_not_same {pipeId : ℕ} (h : st.sysPipe pipeId = some st') :
    ¬st.SameDescriptors st' := by
  obtain ⟨fdR, hfdR, h⟩ := bind_eq_some_iff.mp h
  obtain ⟨fdW, -, h⟩ := bind_eq_some_iff.mp h
  cases h
  obtain ⟨hfree, hlt⟩ := free_of_getAFreeSlotWithSize hfdR
  refine not_sameDescriptors_of_type hlt hfree ?_
  -- the second descriptor may be the first one
  by_cases heq : fdR = fdW
  · rw [← heq, type_setPipe_self]
    decide
  · rw [(copy_setPipe heq _ _).type, type_setPipe_self]
    decide

end OneCall

/-! ## Parent and child -/

section Fork

variable {s s' : ForkState σ} {pid : ℕ} {op : TableOp}

/-- **One call.** It changes no record, and leaves the table it works on as it is exactly if it is
idle. -/
theorem sameTable_iff_idle (h : s.step (pid, op) = some s') :
    s'.processes = s.processes ∧ ∃ p, s.processes pid = some p ∧
      ((s.view p.fdAddr).SameDescriptors (s'.view p.fdAddr) ↔ (s.view p.fdAddr).Idle op) := by
  obtain ⟨p, hp, h⟩ := bind_eq_some_iff.mp h
  obtain ⟨-, h⟩ := ite_none_left_eq_some.mp h
  cases op with
  | sysOpen behind accepted path flags block =>
    obtain ⟨e, he, rfl⟩ := map_eq_some_iff.mp h
    refine ⟨rfl, p, hp, ?_⟩
    rw [ForkState.view_put]
    exact sysOpen_same_iff he
  | sysClose fd =>
    obtain ⟨e, he, rfl⟩ := map_eq_some_iff.mp h
    refine ⟨rfl, p, hp, ?_⟩
    rw [ForkState.view_put]
    exact sysClose_same_iff he
  | dup2 oldfd newfd =>
    obtain ⟨e, he, rfl⟩ := map_eq_some_iff.mp h
    refine ⟨rfl, p, hp, ?_⟩
    rw [ForkState.view_put]
    exact dup2_same_iff he
  | sysPipe block =>
    obtain ⟨pipeId, -, h⟩ := bind_eq_some_iff.mp h
    obtain ⟨st, hst, h⟩ := bind_eq_some_iff.mp h
    cases h
    have hview : ForkState.view { s.put p.fdAddr st with
        pipeGlobal := update s.pipeGlobal pipeId block } p.fdAddr = st :=
      s.view_put p.fdAddr st
    refine ⟨rfl, p, hp, ?_⟩
    rw [hview]
    exact iff_of_false (sysPipe_not_same hst) id

section

variable (hfork : s.sysFork parent fdChild = some (child, s'))
include hfork

theorem sysFork_spec :
    ∃ p q, s.processes parent = some p ∧ s'.processes parent = some p ∧
      s'.processes child = some q ∧ q.fdAddr = p.fdAddr ∧ s'.fdGlobal = s.fdGlobal ∧
      s'.mem = copyTable s.mem p.fdAddr fdChild := by
  obtain ⟨p, hp, h⟩ := bind_eq_some_iff.mp hfork
  obtain ⟨childPid, hchild, h⟩ := bind_eq_some_iff.mp h
  obtain ⟨rfl, hs'⟩ := Prod.mk.inj (some.inj h)
  -- the slot of the child is free, the slot of the parent is not
  have hne : parent ≠ childPid := by
    rintro rfl
    have := (getAFreeSlot_spec hchild).1
    simp [hp] at this
  have hprocesses := congrArg ForkState.processes hs'
  have hglobal := congrArg ForkState.fdGlobal hs'
  have hmem := congrArg ForkState.mem hs'
  dsimp only at hprocesses hglobal hmem
  have hparent : s'.processes parent = some p := by
    rw [← hprocesses]
    exact (update_of_ne hne _ _).trans hp
  have hnew := congrFun hprocesses childPid
  rw [update_self] at hnew
  exact ⟨p, _, hp, hparent, hnew.symm, rfl, hglobal.symm, hmem.symm⟩

theorem sameDescriptors_fork (hfresh : s.FreshTable fdChild) :
    ∃ p q, s.processes parent = some p ∧ s'.processes parent = some p ∧
      s'.processes child = some q ∧ q.fdAddr = p.fdAddr ∧ s'.fdGlobal = s.fdGlobal ∧
      (s.view p.fdAddr).SameDescriptors (s'.view p.fdAddr) := by
  obtain ⟨p, q, hp, hp', hq, haddr, hglobal, hmem⟩ := sysFork_spec hfork
  refine ⟨p, q, hp, hp', hq, haddr, hglobal, fun n hn i hi => ?_⟩
  have happart := hfresh parent p hp
  have hlt : sizeofFileInner * n + i < sizeofFileInner * maxFdInner := by
    have := Nat.mul_le_mul_left sizeofFileInner (Nat.succ_le_of_lt hn)
    rw [Nat.mul_succ] at this
    omega
  change s'.mem _ = s.mem _
  rw [hmem, copyTable_frame (by omega)]

/-- The child has all descriptors of the parent, so it has those that it is to have if there is no
pipe among them. -/
theorem inherits_iff (hfresh : s.FreshTable fdChild) :
    s.Inherits s' parent child ↔ s.NoPipes parent := by
  obtain ⟨p, q, hp, -, hq, haddr, -, hsame⟩ := sameDescriptors_fork hfork hfresh
  constructor
  · rintro ⟨p1, q1, hp1, hq1, hinherits⟩ p2 hp2 n hn h2 hpipe
    cases hp.symm.trans hp1
    cases hq.symm.trans hq1
    cases hp.symm.trans hp2
    have hfree := hinherits n hn
    rw [if_neg (by rw [hpipe]; omega), haddr] at hfree
    have htype := (hsame n hn).type
    rw [hpipe, type_of_free hfree] at htype
    cases htype
  · intro hnone
    refine ⟨p, q, hp, hq, fun n hn => ?_⟩
    rw [haddr, if_pos]
    · exact hsame n hn
    · rcases Nat.lt_or_ge 2 n with h2 | h2
      · exact .inr (hnone p hp n hn h2)
      · exact .inl h2

end

/-- Two processes with one table, as it was in the state `s`. -/
def OneTable (s : ForkState σ) (fdAddr : ℕ) (pids : List ℕ) (s' : ForkState σ) : Prop :=
  (∀ pid ∈ pids, ∃ p, s'.processes pid = some p ∧ p.fdAddr = fdAddr) ∧
    (s.view fdAddr).SameDescriptors (s'.view fdAddr)

theorem OneTable.step {s1 s2 s3 : ForkState σ} (h : OneTable s1 fdAddr pids s2) (hpid : pid ∈ pids)
    (hstep : s2.step (pid, op) = some s3) :
    (∀ pid ∈ pids, ∃ p, s3.processes pid = some p ∧ p.fdAddr = fdAddr) ∧
      ((s2.view fdAddr).SameDescriptors (s3.view fdAddr) ↔ s2.Idle (pid, op)) := by
  obtain ⟨hprocesses, p, hp, hiff⟩ := sameTable_iff_idle hstep
  obtain ⟨p', hp', haddr⟩ := h.1 pid hpid
  cases hp.symm.trans hp'
  refine ⟨fun pid' hpid' => ?_, ?_⟩
  · rw [hprocesses]
    exact h.1 pid' hpid'
  · rw [← haddr, hiff]
    constructor
    · intro hidle p1 hp1
      cases hp.symm.trans hp1
      exact hidle
    · intro hidle
      exact hidle p hp

theorem OneTable.of_run {s1 s2 : ForkState σ} (hstart : OneTable s1 fdAddr pids s1)
    {calls : List (ℕ × TableOp)}
    (hrun : Run ForkState.step (fun s c => c.1 ∈ pids ∧ s.Idle c) s1 calls s2) :
    OneTable s1 fdAddr pids s2 := by
  refine hrun.invariant (OneTable s1 fdAddr pids) ?_ hstart
  rintro s ⟨pid, op⟩ s' hs ⟨hpid, hidle⟩ hstep
  obtain ⟨hprocesses, hiff⟩ := hs.step hpid hstep
  exact ⟨hprocesses, fun n hn => (hs.2 n hn).trans (hiff.mpr hidle n hn)⟩

theorem sameTable_iff {s2 s3 : ForkState σ}
    (h₂ : ∀ pid ∈ pids, ∃ p, s2.processes pid = some p ∧ p.fdAddr = fdAddr)
    (h3 : ∀ pid ∈ pids, ∃ p, s3.processes pid = some p ∧ p.fdAddr = fdAddr) (hpid : pid ∈ pids) :
    s2.SameTable s3 pid ↔ (s2.view fdAddr).SameDescriptors (s3.view fdAddr) := by
  obtain ⟨p, hp, haddr⟩ := h₂ pid hpid
  obtain ⟨p', hp', haddr'⟩ := h3 pid hpid
  constructor
  · rintro ⟨q, q', hq, hq', hsame⟩
    cases hp.symm.trans hq
    cases hp'.symm.trans hq'
    rwa [haddr, haddr'] at hsame
  · intro hsame
    refine ⟨p, p', hp, hp', ?_⟩
    rwa [haddr, haddr']

end Fork

/-- **Parent and child are separate as long as both are idle.** The child has the descriptors that
it is to have exactly if the parent has no pipe above 2; after idle calls both tables are as the
fork left them, and the next call of one leaves the table of the other exactly if it is idle. -/
theorem forkSeparates_iff_idle {s s₁ : ForkState σ} {parent child fdChild : ℕ}
    (hfork : s.sysFork parent fdChild = some (child, s₁)) (hfresh : s.FreshTable fdChild) :
    (s.Inherits s₁ parent child ↔ s.NoPipes parent) ∧
    ∀ (calls : List (ℕ × TableOp)) (s₂ : ForkState σ),
      Run ForkState.step (fun s c => c.1 ∈ [parent, child] ∧ s.Idle c) s₁ calls s₂ →
        s₁.SameTable s₂ parent ∧ s₁.SameTable s₂ child ∧
        ∀ (op : TableOp) (s₃ : ForkState σ),
          (s₂.step (child, op) = some s₃ → (s₂.SameTable s₃ parent ↔ s₂.Idle (child, op))) ∧
          (s₂.step (parent, op) = some s₃ → (s₂.SameTable s₃ child ↔ s₂.Idle (parent, op))) := by
  refine ⟨inherits_iff hfork hfresh, fun calls s₂ hrun => ?_⟩
  obtain ⟨p, q, -, hp, hq, haddr, -, -⟩ := sameDescriptors_fork hfork hfresh
  have hparent : parent ∈ [parent, child] := mem_cons_self
  have hchild : child ∈ [parent, child] := mem_cons_of_mem _ mem_cons_self
  have hstart : OneTable s₁ p.fdAddr [parent, child] s₁ := by
    refine ⟨fun pid hpid => ?_, sameDescriptors_refl _⟩
    rcases mem_cons.mp hpid with rfl | hpid
    · exact ⟨p, hp, rfl⟩
    · obtain rfl := mem_singleton.mp hpid
      exact ⟨q, hq, haddr⟩
  have h := hstart.of_run hrun
  refine ⟨(sameTable_iff hstart.1 h.1 hparent).mpr h.2,
    (sameTable_iff hstart.1 h.1 hchild).mpr h.2, fun op s₃ => ⟨fun hstep => ?_, fun hstep => ?_⟩⟩
  · obtain ⟨hprocesses, hiff⟩ := h.step hchild hstep
    rw [sameTable_iff h.1 hprocesses hparent, hiff]
  · obtain ⟨hprocesses, hiff⟩ := h.step hparent hstep
    rw [sameTable_iff h.1 hprocesses hchild, hiff]

/-! ## A child that closes a descriptor -/

/-- Process 1 has descriptor 0 open; its table is at 4096. -/
def oneOpen : ForkState Unit where
  vfs := onePartition
  devices _ := ()
  mem a := if a = 4096 then 1 else if a = 4096 + 68 then 1 else 0
  fdGlobal i := if i = 1 then 8192 else 0
  files ptr := if ptr = 8192 then ⟨1, [slash, 0x61], 0, 2, .regular⟩ else default
  pipeGlobal _ := 0
  processes pid := if pid = 1 then some ⟨1, 0, 1, .running, 4096⟩ else none

theorem oneOpen_fresh : oneOpen.FreshTable (2 ^ 20) := by
  intro pid p hp
  obtain ⟨-, hp⟩ := ite_none_right_eq_some.mp hp
  cases hp
  exact .inr (by decide)

def zerosBehind : Behind := ⟨fun _ => 0, fun _ => 0, 20⟩

/-- The child of process 1 tries to open `/dev/x`, and the table of process 1 stays as it is. -/
theorem forkSeparates_iff_idle_open : ∃ s₁ s₂, oneOpen.sysFork 1 (2 ^ 20) = some (2, s₁) ∧
    s₁.step (2, .sysOpen zerosBehind false [0x2f, 0x64, 0x65, 0x76, 0x2f, 0x78] 0 0) = some s₂ ∧
    s₁.SameTable s₂ 1 := by
  obtain ⟨⟨child, s₁⟩, hfork, rfl, s₂, hstep, -⟩ : ∃ r ∈ oneOpen.sysFork 1 (2 ^ 20), r.1 = 2 ∧
      ∃ s₂ ∈ r.2.step (2, .sysOpen zerosBehind false [0x2f, 0x64, 0x65, 0x76, 0x2f, 0x78] 0 0),
      True := by
    decide
  refine ⟨s₁, s₂, hfork, hstep, ?_⟩
  have hsep := (forkSeparates_iff_idle hfork oneOpen_fresh).2 [] s₁ (.nil _)
  refine ((hsep.2.2 _ s₂).1 hstep).mpr fun p _ => ?_
  exact ⟨by decide, .inr (.inl (by decide))⟩

/-- **A child closes the descriptors of its parent.** -/
theorem child_closes_parent : ∃ s₁ s₂, oneOpen.sysFork 1 (2 ^ 20) = some (2, s₁) ∧
    s₁.step (2, .sysClose 3) = some s₂ ∧ ¬s₁.SameTable s₂ 1 := by
  have hresult : (oneOpen.sysFork 1 (2 ^ 20)).map Prod.fst = some 2 := by decide
  obtain ⟨⟨child, s₁⟩, hfork, hchild⟩ := map_eq_some_iff.mp hresult
  obtain rfl : child = 2 := hchild
  obtain ⟨p, q, hp, hp', hq, haddr, hglobal, hsame⟩ := sameDescriptors_fork hfork oneOpen_fresh
  obtain rfl : p = ⟨1, 0, 1, .running, 4096⟩ := (some.inj hp).symm
  -- the first descriptor is still open, so that the call gets to the erasing
  have hid : (s₁.view 4096).globalId 0 = 1 := by
    rw [(hsame 0 (by decide)).globalId]
    decide
  have hopen : (s₁.view 4096).fdGlobal ((s₁.view 4096).globalIndex 0) ≠ 0 := by
    rw [globalIndex, hid]
    change s₁.fdGlobal _ ≠ 0
    rw [hglobal]
    decide
  have hstep : s₁.step (2, .sysClose 3) =
      some (s₁.put 4096 ((s₁.view 4096).closed (3 : ℤ).toNat)) := by
    simp [ForkState.step, hq, haddr, sysClose, close, hopen]
  refine ⟨s₁, _, hfork, hstep, ?_⟩
  rintro ⟨p₁, p₂, hp₁, hp₂, hclosed⟩
  cases hp'.symm.trans hp₁
  cases hp'.symm.trans hp₂
  rw [ForkState.view_put] at hclosed
  have hzero : (s₁.view 4096).table 0 = 0 :=
    copy_closed_iff.mp (hclosed 0 (by decide)) 0 (by decide) (.inl (by decide))
  have hone : (s₁.view 4096).table 0 = 1 := hsame 0 (by decide) 0 (by decide)
  cases hzero.symm.trans hone

end CarrotOS
