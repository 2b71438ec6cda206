import CarrotOS.Sched.Signal

/-!
# The tables in memory (`boot.asm`, `core/scheduler.h`, `core/elf/loader.h`, `syscall2.h`)

`processes_info_ptr` and `threads_info_ptr` are tables of pointers that stand one behind the other
in memory; the records are in blocks of their own. Two functions take the address of an entry of
the table for the address of a record, so the words of the tables are modelled as they lie in
memory, from `processes_info_ptr` on:

| words      | content               |
|------------|-----------------------|
| 0 .. 1279  | `processes_info_ptr`  |
| 1280       | `processes_info_lock` |
| 1282 .. 2561 | `processes_cr3_ptr` |
| 2562 .. 5121 | `threads_info_ptr`  |
| 5122       | `threads_info_lock`   |

The memory of a process, and the registers and stacks of its threads, are left out. A pointer that
points at no record is not followed: such a call has no successor.
-/

namespace CarrotOS.Sched

open Word Table Function Option

variable {g : Thread → Thread}

def processesCr3Ptr : ℕ := 1282

def threadsInfoPtr : ℕ := 2562

/-- The size of `process_info_t`, in words. -/
def processInfoWords : ℕ := 405

/-- The words of the tables, and the records by their addresses. -/
structure Kernel where
  words : ℕ → ℕ
  processRecords : ℕ → Option Process
  threadRecords : ℕ → Option Thread

namespace Kernel

def threadPtrs (k : Kernel) (tid : ℕ) : ℕ :=
  k.words (threadsInfoPtr + tid)

def thread (k : Kernel) : ℕ → Option Thread :=
  deref k.threadPtrs k.threadRecords

def process (k : Kernel) : ℕ → Option Process :=
  deref k.words k.processRecords

def setWord (k : Kernel) (i w : ℕ) : Kernel :=
  { k with words := update k.words i w }

def modifyThread (k : Kernel) (tid : ℕ) (g : Thread → Thread) : Kernel :=
  { k with threadRecords := modify k.threadRecords (k.threadPtrs tid) g }

def modifyProcess (k : Kernel) (pid : ℕ) (g : Process → Process) : Kernel :=
  { k with processRecords := modify k.processRecords (k.words pid) g }

/-- A thread whose record is in new memory. -/
def insertThread (k : Kernel) (tid addr : ℕ) (t : Thread) : Kernel :=
  { k.setWord (threadsInfoPtr + tid) addr with
    threadRecords := update k.threadRecords addr (some t) }

/-- Every pointer of the thread table is null or points at a record. -/
@[irreducible]
def threadsValid (k : Kernel) : Bool :=
  (List.range maxThreadsCount).all fun i => k.threadPtrs i == 0 || (k.thread i).isSome

end Kernel

/-! ## Processes and threads are made -/

/-- `register_a_thread`. The address of the entry of the process is taken for the address of its
record, so `threads_count++` goes to the fourth entry behind it. -/
def Kernel.registerAThread (k : Kernel) (pid threadAddr : ℕ) : Option (ℕ × Kernel) := do
  let threadId ← getAFreeSlot k.threadPtrs 2 maxThreadsCount
  let k := k.insertThread threadId threadAddr (newThread pid threadId)
  some (threadId, k.setWord (pid + 4) (u64 (k.words (pid + 4) + 1)))

def Kernel.setupProcessInfo (k : Kernel) (pid parentPid processAddr : ℕ) : Kernel :=
  { k.setWord pid processAddr with
    processRecords := update k.processRecords processAddr (some
      { addr := processAddr, state := .running, signal := 0, threadsCount := 0,
        parentPid := parentPid, returnCode := 0 }) }

/-- What `run_elf_process` finds: a file that it refuses to load, a file of which it cannot load a
segment, or a program. -/
inductive Loading where
  | refused (r : ℕ)
  | broken (r : ℕ)
  | loaded
  deriving DecidableEq

/-- The part of `run_elf_process` that makes the process and its page table. -/
def Kernel.prepareProcess (k : Kernel) (caller : ℕ) (isFork : Bool) (processAddr cr3 : ℕ) :
    Option (ℕ × Kernel) :=
  if isFork then do
    let curr ← k.thread caller
    some (curr.pid, k.setWord (processesCr3Ptr + curr.pid) cr3)
  else do
    let pid ← getAFreeSlot k.words 0 maxProcessesCount
    let k := k.setupProcessInfo pid pid processAddr
    some (pid, k.setWord (processesCr3Ptr + pid) cr3)

/-- The part of `run_elf_process` after the program is loaded. The table is taken for an array of
records when `main_thread_id` and `state` are set. -/
def Kernel.startProcess (k : Kernel) (pid threadAddr : ℕ) : Option (ℕ × Kernel) := do
  let (mainThreadId, k) ← k.registerAThread pid threadAddr
  let k := k.setWord (processInfoWords * pid + 2) mainThreadId
  -- PROCESS_IDLE
  let k := k.setWord (processInfoWords * pid + 1) 2
  let _ ← k.process pid
  let k := k.modifyProcess pid fun p => { p with signal := 0 }
  let _ ← k.thread mainThreadId
  some (pid, k.modifyThread mainThreadId fun t => { t with state := .ready })

def Kernel.runElfProcess (k : Kernel) (caller : ℕ) (isFork : Bool)
    (processAddr cr3 threadAddr : ℕ) : Loading → Option (ℕ × Kernel)
  | .refused r => some (r, k)
  | .broken r => do
    let (_, k) ← k.prepareProcess caller isFork processAddr cr3
    some (r, k)
  | .loaded => do
    let (pid, k) ← k.prepareProcess caller isFork processAddr cr3
    k.startProcess pid threadAddr

def cloneThread : ℕ := 0x10000

/-- `sys_clone`. The count of the process is left as it is. -/
def Kernel.sysClone (k : Kernel) (caller flags childAddr : ℕ) : Option (ℕ × Kernel) :=
  if flags &&& cloneThread = 0 then some (2 ^ 64 - 1, k)
  else do
    let parentThread ← k.thread caller
    let proc ← k.process parentThread.pid
    if proc.state = .endedButNotCleaned then some (2 ^ 64 - 1, k)
    else do
      let childTid ← getAFreeSlot k.threadPtrs 1 maxThreadsCount
      some (childTid, k.insertThread childTid childAddr
        { parentThread with state := .ready, tid := childTid })

/-! ## Exits -/

/-- `mark_process_as_ended`, called by a thread. -/
def Kernel.markProcessAsEnded (k : Kernel) (caller : ℕ) : Option Kernel := do
  let curr ← k.thread caller
  let _ ← k.process curr.pid
  let k := k.modifyProcess curr.pid fun p => { p with state := .endedButNotCleaned }
  if k.threadsValid then
    some { k with
      threadRecords := sweepAt maxThreadsCount k.threadPtrs
        (fun t => t.pid == curr.pid && t.state != .notExist && t.state != .endedButNotCleaned)
        (fun t => { t with state := .endedButNotCleaned }) k.threadRecords }
  else none

def Kernel.sysExit (k : Kernel) (caller status : ℕ) : Option Kernel := do
  let curr ← k.thread caller
  let k := k.modifyThread caller fun t =>
    { t with state := .endedButNotCleaned, returnCode := status }
  let proc ← k.process curr.pid
  let threadsCount := u64 (proc.threadsCount + 2 ^ 64 - 1)
  let k := k.modifyProcess curr.pid fun p => { p with threadsCount := threadsCount }
  if threadsCount ≤ 0 then k.markProcessAsEnded caller else some k

/-! ## Intact tables -/

/-- The pointers of the two tables are null or point at records of their own, these records make up
the tables of `s`, and every thread belongs to a process. -/
structure Intact (k : Kernel) (s : System Unit) : Prop where
  thread : ∀ i < maxThreadsCount, k.thread i = s.threads i
  process : ∀ pid < maxProcessesCount, k.process pid = s.processes pid
  process_none : ∀ pid, maxProcessesCount ≤ pid → s.processes pid = none
  thread_isSome : ∀ i < maxThreadsCount, k.threadPtrs i ≠ 0 → (s.threads i).isSome
  process_isSome : ∀ pid < maxProcessesCount, k.words pid ≠ 0 → (s.processes pid).isSome
  threads_separate : Separate maxThreadsCount k.threadPtrs
  processes_separate : Separate maxProcessesCount k.words
  pid_lt : ∀ i < maxThreadsCount, ∀ t, s.threads i = some t →
    t.pid < maxProcessesCount ∧ k.words t.pid ≠ 0

namespace Intact

variable {k k' : Kernel} {s s' : System Unit} {i pid caller : ℕ}

section

variable (h : Intact k s)
include h

theorem setWord {j w : ℕ} (hj : maxProcessesCount ≤ j) (hj' : j < threadsInfoPtr) :
    Intact (k.setWord j w) s := by
  have hthread : (k.setWord j w).threadPtrs = k.threadPtrs := by
    funext i
    exact update_of_ne (by omega) _ _
  have hword : ∀ pid < maxProcessesCount, (k.setWord j w).words pid = k.words pid :=
    fun pid hpid => update_of_ne (by omega) _ _
  constructor
  · intro i hi
    rw [← h.thread i hi, Kernel.thread, hthread]
    rfl
  · intro pid hpid
    rw [← h.process pid hpid, Kernel.process, deref, hword pid hpid]
    rfl
  · exact h.process_none
  · rw [hthread]
    exact h.thread_isSome
  · intro pid hpid hnull
    exact h.process_isSome pid hpid (hword pid hpid ▸ hnull)
  · rw [hthread]
    exact h.threads_separate
  · intro p hp q hq hnull heq
    rw [hword p hp] at hnull heq
    rw [hword q hq] at heq
    exact h.processes_separate p hp q hq hnull heq
  · intro i hi t ht
    obtain ⟨hlt, hnull⟩ := h.pid_lt i hi t ht
    exact ⟨hlt, (hword _ hlt).symm ▸ hnull⟩

theorem of_threads {records : ℕ → Option Thread} (hprocesses : s'.processes = s.processes)
    (hthread : ∀ i < maxThreadsCount, deref k.threadPtrs records i = s'.threads i)
    (hback : ∀ i t', s'.threads i = some t' → ∃ t, s.threads i = some t ∧ t'.pid = t.pid)
    (hsome : ∀ i, (s.threads i).isSome → (s'.threads i).isSome) :
    Intact { k with threadRecords := records } s' := by
  refine ⟨hthread, ?_, ?_, ?_, ?_, h.threads_separate, h.processes_separate, ?_⟩
  · rw [hprocesses]
    exact h.process
  · rw [hprocesses]
    exact h.process_none
  · exact fun i hi hnull => hsome i (h.thread_isSome i hi hnull)
  · rw [hprocesses]
    exact h.process_isSome
  · intro i hi t' ht'
    obtain ⟨t, ht, hpid⟩ := hback i t' ht'
    rw [hpid]
    exact h.pid_lt i hi t ht

theorem modifyThread (hi : i < maxThreadsCount) (hg : ∀ t, (g t).tid = t.tid)
    (hpid : ∀ t, (g t).pid = t.pid) :
    Intact (k.modifyThread i g) (s.modify i g hg) := by
  refine h.of_threads rfl ?_ ?_ ?_
  · intro j hj
    rw [deref_modify h.threads_separate hi hj, System.threads_modify]
    change modify k.thread i g j = modify s.threads i g j
    by_cases hji : j = i
    · subst hji
      rw [modify_self, modify_self, h.thread j hj]
    · rw [modify_of_ne hji, modify_of_ne hji, h.thread j hj]
  · intro j t' ht'
    obtain ⟨t, ht, rfl⟩ := modify_eq_some.mp ht'
    refine ⟨t, ht, ?_⟩
    split_ifs
    · exact hpid t
    · rfl
  · intro j hj
    obtain ⟨t, ht⟩ := isSome_iff_exists.mp hj
    exact isSome_iff_exists.mpr ⟨_, modify_eq_some.mpr ⟨t, ht, rfl⟩⟩

theorem sweep {p : Thread → Bool} (hg : ∀ t, (g t).tid = t.tid) (hpid : ∀ t, (g t).pid = t.pid) :
    Intact { k with threadRecords := sweepAt maxThreadsCount k.threadPtrs p g k.threadRecords }
      (s.sweep (fun _ => p) g hg) := by
  refine h.of_threads rfl ?_ ?_ ?_
  · intro j hj
    rw [deref_sweepAt hj, System.threads_sweep, Table.sweep, Table.sweep, ← h.thread j hj]
    rfl
  · intro j t' ht'
    rw [System.threads_sweep] at ht'
    obtain ⟨t, ht, rfl⟩ := sweep_eq_some.mp ht'
    refine ⟨t, ht, ?_⟩
    split_ifs
    · exact hpid t
    · rfl
  · intro j hj
    obtain ⟨t, ht⟩ := isSome_iff_exists.mp hj
    rw [System.threads_sweep]
    exact isSome_iff_exists.mpr ⟨_, sweep_eq_some.mpr ⟨t, ht, rfl⟩⟩

theorem modifyProcess (hpid : pid < maxProcessesCount) (g : Process → Process) :
    Intact (k.modifyProcess pid g) (s.modifyProcess pid g) := by
  have hiff : ∀ q, ((s.modifyProcess pid g).processes q).isSome = (s.processes q).isSome := by
    intro q
    change (modify s.processes pid g q).isSome = _
    by_cases hq : q = pid
    · subst hq
      rw [modify_self, isSome_map]
    · rw [modify_of_ne hq]
  refine ⟨h.thread, ?_, ?_, h.thread_isSome, ?_, h.threads_separate, h.processes_separate,
    h.pid_lt⟩
  · intro q hq
    change deref k.words (modify k.processRecords (k.words pid) g) q = modify s.processes pid g q
    rw [deref_modify h.processes_separate hpid hq]
    change modify k.process pid g q = _
    by_cases hqp : q = pid
    · subst hqp
      rw [modify_self, modify_self, h.process q hq]
    · rw [modify_of_ne hqp, modify_of_ne hqp, h.process q hq]
  · intro q hq
    have hnone := hiff q
    rw [h.process_none q hq] at hnone
    exact not_isSome_iff_eq_none.mp (by simp [hnone])
  · intro q hq hnull
    rw [hiff q]
    exact h.process_isSome q hq hnull

/-- A new process, in an entry that was free and in memory that was not in use. -/
theorem setupProcessInfo (hpid : pid < maxProcessesCount) (parentPid : ℕ) {addr : ℕ}
    (haddr : addr ≠ 0) (hfresh : ∀ q < maxProcessesCount, k.words q ≠ addr) :
    Intact (k.setupProcessInfo pid parentPid addr)
      { s with
        processes := update s.processes pid (some
          { addr := addr, state := .running, signal := 0, threadsCount := 0,
            parentPid := parentPid, returnCode := 0 }) } := by
  have hptrs : (k.setupProcessInfo pid parentPid addr).threadPtrs = k.threadPtrs := by
    funext i
    refine update_of_ne ?_ _ _
    unfold threadsInfoPtr maxProcessesCount at *
    omega
  refine ⟨?_, ?_, ?_, ?_, ?_, ?_, h.processes_separate.insert hfresh, ?_⟩
  · intro i hi
    rw [Kernel.thread, hptrs]
    exact h.thread i hi
  · intro q hq
    change deref (update k.words pid addr) (update k.processRecords addr _) q =
      update s.processes pid _ q
    rw [deref_insert hfresh haddr hq]
    by_cases hqp : q = pid
    · subst hqp
      rw [update_self, update_self]
    · rw [update_of_ne hqp, update_of_ne hqp]
      exact h.process q hq
  · intro q hq
    change update s.processes pid _ q = _
    rw [update_of_ne (by omega)]
    exact h.process_none q hq
  · rw [hptrs]
    exact h.thread_isSome
  · intro q hq hnull
    change (update s.processes pid _ q).isSome
    by_cases hqp : q = pid
    · subst hqp
      rw [update_self]
      rfl
    · rw [update_of_ne hqp]
      change update k.words pid addr q ≠ 0 at hnull
      rw [update_of_ne hqp] at hnull
      exact h.process_isSome q hq hnull
  · rw [hptrs]
    exact h.threads_separate
  · intro i hi t ht
    obtain ⟨hlt, hnull⟩ := h.pid_lt i hi t ht
    refine ⟨hlt, ?_⟩
    change update k.words pid addr t.pid ≠ 0
    by_cases htp : t.pid = pid
    · rw [htp, update_self]
      exact haddr
    · rwa [update_of_ne htp]

/-! ## Exits of intact tables -/

theorem markProcessAsEnded (hcaller : caller < maxThreadsCount) (hcurrent : s.current () = caller)
    (hk : k.markProcessAsEnded caller = some k') :
    ∃ s', Sched.markProcessAsEnded s () = some s' ∧ Intact k' s' := by
  simp only [Kernel.markProcessAsEnded, bind_eq_bind, bind_eq_some_iff,
    ite_none_right_eq_some, some.injEq] at hk
  obtain ⟨curr, hcurr, proc, hproc, -, rfl⟩ := hk
  rw [h.thread caller hcaller] at hcurr
  have hpid := (h.pid_lt caller hcaller curr hcurr).1
  rw [h.process _ hpid] at hproc
  have hended := (h.modifyProcess hpid fun p => { p with state := .endedButNotCleaned }).sweep
    (p := fun t => t.pid == curr.pid && t.state != .notExist && t.state != .endedButNotCleaned)
    (g := fun t => { t with state := .endedButNotCleaned }) (fun _ => rfl) fun _ => rfl
  refine ⟨_, ?_, hended⟩
  simp only [Sched.markProcessAsEnded, hcurrent, hcurr, hproc, bind_eq_bind,
    bind_some]

/-- **`sys_exit`** on intact tables. -/
theorem sysExit {status : ℕ} (hcaller : caller < maxThreadsCount) (hcurrent : s.current () = caller)
    (hk : k.sysExit caller status = some k') :
    ∃ s', markCurrentThreadAsEnded s () status = some s' ∧ Intact k' s' := by
  simp only [Kernel.sysExit, bind_eq_bind, bind_eq_some_iff] at hk
  obtain ⟨curr, hcurr, proc, hproc0, hk⟩ := hk
  rw [h.thread caller hcaller] at hcurr
  have hpid := (h.pid_lt caller hcaller curr hcurr).1
  have hproc : s.processes curr.pid = some proc := (h.process _ hpid).symm.trans hproc0
  have hmarked := (h.modifyThread hcaller (g := fun t =>
    { t with state := .endedButNotCleaned, returnCode := status }) (fun _ => rfl)
      fun _ => rfl).modifyProcess hpid fun p =>
        { p with threadsCount := u64 (proc.threadsCount + 2 ^ 64 - 1) }
  subst hcurrent
  rw [markCurrentThreadAsEnded_eq hcurr hproc]
  by_cases hlast : u64 (proc.threadsCount + 2 ^ 64 - 1) ≤ 0
  · rw [if_pos hlast] at hk ⊢
    exact hmarked.markProcessAsEnded hcaller rfl hk
  · rw [if_neg hlast] at hk ⊢
    cases hk
    exact ⟨_, rfl, hmarked⟩

end

end Intact

end CarrotOS.Sched
