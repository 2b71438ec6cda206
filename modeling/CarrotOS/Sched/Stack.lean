import CarrotOS.Mem.Pages
import CarrotOS.Sched.Count
import Mathlib.Data.Finset.Card

/-!
# The stacks of threads (`core/scheduler.h`, `core/syscall/syscall2.h`)

`register_a_thread` goes down from the end of the low half in steps of five pages until a page is
not mapped, and maps four pages there. An exit unmaps the four pages below the `stack_addr` of the
record of the thread. `sys_clone` copies the record, with `stack_addr`, although the new thread runs
on memory of its caller: when one of the two exits, the other one loses its stack, and the next
thread that is registered gets the same place.

As long as no thread exits whose `stack_addr` another live thread has too, each place is mapped as a
whole or not at all, and a place that is mapped belongs to a record of the table. Only the records
of one process are looked at.
-/

namespace CarrotOS.ThreadStack

open Word Transition Table Function List Option

variable {i k rest tid top : ℕ} {m : Machine} {registered : List ℕ} {info : ℕ → Fin 512 → ℕ}

/-! ## The code -/

structure StackThread where
  tid : ℕ
  pid : ℕ
  state : ThreadState
  stackAddr : ℕ
  deriving DecidableEq, Repr

structure StackProcess where
  state : ProcessState
  threadsCount : ℕ
  deriving DecidableEq, Repr

/-- Memory, the two tables, and the threads that `register_a_thread` has made. -/
structure StackState where
  machine : Machine
  threads : ℕ → Option StackThread
  processes : ℕ → Option StackProcess
  registered : List ℕ

def stackStep : ℕ := 5 * 4096

def firstStackTop : ℕ := HM - 4096

/-- The loop of `register_a_thread` that looks for a place. When it has come to the start of the
memory, the addresses wrap around; they are not followed. -/
def findStackTop (m : Machine) (pid : ℕ) : ℕ → ℕ → Option ℕ
  | 0, _ => none
  | rest + 1, top =>
    if isPaged m pid (top - 4096) then findStackTop m pid rest (top - stackStep) else some top

def stackPages (top : ℕ) : List ℕ :=
  [1, 2, 3, 4].map fun i => u64 (top + 2 ^ 64 - i * 4096)

def slotWords (threads : ℕ → Option StackThread) (i : ℕ) : ℕ :=
  (threads i).elim 0 fun _ => 1

/-- `register_a_thread`. The record and the kernel stack are in five blocks. -/
def registerAThread (boot : Boot) (st : StackState) (pid : ℕ) (info : ℕ → Fin 512 → ℕ) :
    Option StackState := do
  let threadStackTop ← findStackTop st.machine pid (firstStackTop / stackStep) firstStackTop
  let m ← mapPages boot pid (stackPages threadStackTop) st.machine
  let m ← takeBlocks boot 5 info m
  let threadId ← getAFreeSlot (slotWords st.threads) 2 maxThreadsCount
  some { st with
    machine := m
    threads := update st.threads threadId (some ⟨threadId, pid, .notExist, threadStackTop⟩)
    registered := threadId :: st.registered }

/-- `sys_clone`. The record is copied with its `stack_addr`. -/
def sysClone (boot : Boot) (st : StackState) (caller flags : ℕ) (info : ℕ → Fin 512 → ℕ) :
    Option StackState :=
  if flags &&& Sched.cloneThread = 0 then some st
  else do
    let parentThread ← st.threads caller
    let proc ← st.processes parentThread.pid
    if proc.state = .endedButNotCleaned then some st
    else do
      let childTid ← getAFreeSlot (slotWords st.threads) 1 maxThreadsCount
      let m ← takeBlocks boot 5 info st.machine
      some { st with
        machine := m
        threads := update st.threads childTid
          (some { parentThread with state := .ready, tid := childTid }) }

/-- `mark_process_as_ended`, for the process of the running thread. -/
def markProcessAsEnded (st : StackState) (pid : ℕ) : StackState :=
  { st with
    processes := modify st.processes pid fun p => { p with state := .endedButNotCleaned }
    threads := sweep maxThreadsCount
      (fun _ t => t.pid == pid && t.state != .notExist && t.state != .endedButNotCleaned)
      (fun t => { t with state := .endedButNotCleaned }) st.threads }

def markCurrentThreadAsEnded (st : StackState) (tid : ℕ) : Option StackState := do
  let t ← st.threads tid
  let proc ← st.processes t.pid
  let threadsCount := u64 (proc.threadsCount + 2 ^ 64 - 1)
  let st := { st with
    threads := modify st.threads tid fun t => { t with state := .endedButNotCleaned }
    machine := unmapPages t.pid (stackPages t.stackAddr) st.machine
    processes := modify st.processes t.pid fun p => { p with threadsCount } }
  some (if threadsCount ≤ 0 then markProcessAsEnded st t.pid else st)

/-- The calls for one process, with what is stored in the blocks of a new record. The callers of
`register_a_thread` make the thread ready. -/
inductive StackCall where
  | register (info : ℕ → Fin 512 → ℕ)
  | ready (tid : ℕ)
  | clone (caller flags : ℕ) (info : ℕ → Fin 512 → ℕ)
  | exit (caller : ℕ)

def StackCall.apply (boot : Boot) (pid : ℕ) (st : StackState) : StackCall → Option StackState
  | .register info => registerAThread boot st pid info
  | .ready tid =>
    some { st with threads := modify st.threads tid fun t => { t with state := .ready } }
  | .clone caller flags info => sysClone boot st caller flags info
  | .exit caller => markCurrentThreadAsEnded st caller

/-! ## The tables of the scheduler -/

/-- The tables are those of the scheduler, apart from what only one of the two looks at. -/
structure StackState.Shows (st : StackState) (threads : ℕ → Option Sched.Thread)
    (processes : ℕ → Option Sched.Process) : Prop where
  threads : ∀ i < maxThreadsCount, (st.threads i).map (fun t => (t.tid, t.pid, t.state)) =
    (threads i).map fun t => (t.tid, t.pid, t.state)
  processes : ∀ pid < maxProcessesCount,
    (st.processes pid).map (fun p => (p.state, p.threadsCount)) =
      (processes pid).map fun p => (p.state, p.threadsCount)

namespace StackState.Shows

variable {boot : Boot} {st st' : StackState} {k k' : Sched.Kernel} {s s' : Sched.System Unit}
  {pid addr caller flags status r : ℕ}

theorem insert {t : StackThread} {t' : Sched.Thread} {threads threads' : ℕ → Option Sched.Thread}
    {processes : ℕ → Option Sched.Process} (h : st.Shows threads processes)
    (ht : (t.tid, t.pid, t.state) = (t'.tid, t'.pid, t'.state))
    (hst : st'.threads = update st.threads tid (some t)) (hproc : st'.processes = st.processes)
    (hthreads : ∀ l < maxThreadsCount, threads' l = update threads tid (some t') l) :
    st'.Shows threads' processes := by
  refine ⟨fun l hl => ?_, hproc ▸ h.processes⟩
  rw [hst, hthreads l hl, update_apply, update_apply]
  split
  · exact congrArg some ht
  · exact h.threads l hl

section

variable (h : st.Shows k.thread k.process) (hs : Sched.Intact k s) (hfresh : k.FreshThread addr)
  (hslot : k.HasThreadSlot)
include h hs

theorem slot {start j : ℕ} (hi : getAFreeSlot (slotWords st.threads) start maxThreadsCount = some i)
    (hj : getAFreeSlot k.threadPtrs start maxThreadsCount = some j) (hlt : j < maxThreadsCount) :
    i = j := by
  have hnull : ∀ l < maxThreadsCount, slotWords st.threads l = 0 ↔ k.threadPtrs l = 0 := by
    intro l hl
    have hsame := h.threads l hl
    have hsome := hs.thread_isSome l hl
    rw [← hs.thread l hl] at hsome
    have hnone := @Sched.Kernel.thread_of_null k l
    unfold slotWords
    cases hst : st.threads l <;> cases hk : k.thread l <;> simp_all
  obtain ⟨hfree, hstart, -, hfirst⟩ := getAFreeSlot_spec hi
  obtain ⟨hfree', hstart', -, hfirst'⟩ := getAFreeSlot_spec hj
  rcases Nat.lt_trichotomy i j with hij | heq | hji
  · exact absurd ((hnull i (hij.trans hlt)).mp hfree) (hfirst' i hstart hij)
  · exact heq
  · exact absurd ((hnull j hlt).mpr hfree') (hfirst j hstart' hji)

include hfresh hslot

/-- **`register_a_thread`** puts the same thread into the table. -/
theorem registerAThread (hpid : pid < maxProcessesCount)
    (hst : ThreadStack.registerAThread boot st pid info = some st')
    (hk : k.registerAThread pid addr = some (tid, k')) : st'.Shows k'.thread k.process := by
  have hreg := Sched.registerAThread_spec hpid hfresh hslot hk
  simp only [ThreadStack.registerAThread, bind_eq_bind, bind_eq_some_iff] at hst
  obtain ⟨top, -, m₁, -, m₂, -, i, hi, hst⟩ := hst
  obtain ⟨j, hj, hk⟩ := bind_eq_some_iff.mp hk
  cases hst
  cases hk
  obtain rfl := h.slot hs hi hj hreg.tid_lt
  exact h.insert (by rfl) rfl rfl hreg.thread

/-- **`sys_clone`** puts the same copy into the table, or none. -/
theorem sysClone (hcaller : caller < maxThreadsCount)
    (hst : ThreadStack.sysClone boot st caller flags info = some st')
    (hk : k.sysClone caller flags addr = some (r, k')) : st'.Shows k'.thread k.process := by
  simp only [ThreadStack.sysClone, Sched.Kernel.sysClone, bind_eq_bind] at hst hk
  split_ifs at hst hk
  · cases hst
    cases hk
    exact h
  obtain ⟨t, ht, hst⟩ := bind_eq_some_iff.mp hst
  obtain ⟨p, hp, hst⟩ := bind_eq_some_iff.mp hst
  obtain ⟨t', ht', hk⟩ := bind_eq_some_iff.mp hk
  obtain ⟨p', hp', hk⟩ := bind_eq_some_iff.mp hk
  have hthread := h.threads caller hcaller
  have hpid := (hs.pid_lt caller hcaller t' (hs.thread caller hcaller ▸ ht')).1
  have hprocess := h.processes t'.pid hpid
  simp only [ht, ht', hp', Option.map_some, some.injEq, Prod.mk.injEq] at hthread hprocess
  rw [← hthread.2.1, hp, Option.map_some, some.injEq, Prod.mk.injEq] at hprocess
  rw [hprocess.1] at hst
  split_ifs at hst hk
  · cases hst
    cases hk
    exact h
  obtain ⟨i, hi, hst⟩ := bind_eq_some_iff.mp hst
  obtain ⟨m₁, -, hst⟩ := bind_eq_some_iff.mp hst
  obtain ⟨j, hj, hk⟩ := bind_eq_some_iff.mp hk
  cases hst
  cases hk
  have hlt := getAFreeSlot_lt hj (hslot.imp fun _ h => ⟨by omega, h.2⟩)
  obtain rfl := h.slot hs hi hj hlt
  exact h.insert (by simp [hthread.2.1]) rfl rfl fun l hl => Sched.thread_insertThread hfresh hl

end

/-- **`mark_current_thread_as_ended`** ends the same threads. -/
theorem markCurrentThreadAsEnded (h : st.Shows s.threads s.processes)
    (hcaller : s.current () < maxThreadsCount)
    (hpid : ∀ t, s.threads (s.current ()) = some t → t.pid < maxProcessesCount)
    (hst : ThreadStack.markCurrentThreadAsEnded st (s.current ()) = some st')
    (hs : Sched.markCurrentThreadAsEnded s () status = some s') :
    st'.Shows s'.threads s'.processes := by
  obtain ⟨t, ht, hst⟩ := bind_eq_some_iff.mp hst
  obtain ⟨p, hp, hst⟩ := bind_eq_some_iff.mp hst
  obtain ⟨t', ht', -⟩ := bind_eq_some_iff.mp hs
  have hthread := h.threads _ hcaller
  simp only [ht, ht', Option.map_some, some.injEq, Prod.mk.injEq] at hthread
  have hprocess := h.processes t'.pid (hpid t' ht')
  rw [← hthread.2.1, hp, Option.map_some, eq_comm, Option.map_eq_some_iff] at hprocess
  obtain ⟨p', hp', hsame⟩ := hprocess
  rw [hthread.2.1] at hp' hst
  rw [Sched.markCurrentThreadAsEnded_eq ht' hp', (Prod.mk.inj hsame).2] at hs
  by_cases hlast : u64 (p.threadsCount + 2 ^ 64 - 1) ≤ 0
  · simp only [if_pos hlast, Sched.markProcessAsEnded, bind_eq_bind, bind_eq_some_iff] at hs hst
    obtain ⟨curr, hcurr, q, -, hs⟩ := hs
    have hsamePid : curr.pid = t'.pid := by
      obtain ⟨u, hu, rfl⟩ := modify_eq_some.mp hcurr
      cases ht'.symm.trans hu
      split <;> rfl
    cases hst
    cases hs
    rw [hsamePid]
    refine ⟨fun l hl => Table.map_congr ?_ (modify_congr ?_ h.threads _ l hl),
      modify_congr ?_ (modify_congr ?_ h.processes _) _⟩
    all_goals rintro ⟨⟩ ⟨⟩ ⟨⟩
    · dsimp only
      split <;> rfl
    · rfl
    · rfl
    · rfl
  · simp only [if_neg hlast] at hs hst
    cases hst
    cases hs
    refine ⟨modify_congr ?_ h.threads _, modify_congr ?_ h.processes _⟩
    all_goals
      rintro ⟨⟩ ⟨⟩ ⟨⟩
      rfl

end StackState.Shows

/-! ## What is to hold -/

def StackThread.Live (t : StackThread) : Prop :=
  t.state ≠ .endedButNotCleaned ∧ t.state ≠ .dead

instance (t : StackThread) : Decidable t.Live :=
  inferInstanceAs (Decidable (_ ∧ _))

def InStack (top w : ℕ) : Prop :=
  top ≤ w + 4 * 4096 ∧ w < top

/-- The record `t` of the process is in the slot. -/
def StackState.Has (st : StackState) (pid tid : ℕ) (t : StackThread) : Prop :=
  st.threads tid = some t ∧ t.pid = pid

/-- A page lies between the two stacks and is not mapped. -/
def StacksApart (m : Machine) (pid : ℕ) (t t' : StackThread) : Prop :=
  ∃ page, isPaged m pid (4096 * page) = false ∧
    (t.stackAddr ≤ 4096 * page ∧ 4096 * (page + 1) + 4 * 4096 ≤ t'.stackAddr ∨
      t'.stackAddr ≤ 4096 * page ∧ 4096 * (page + 1) + 4 * 4096 ≤ t.stackAddr)

/-- **Stacks are private**: those of two live threads that have been registered are apart, and the
stack of every live thread is mapped. -/
def StacksPrivate (pid : ℕ) (st : StackState) : Prop :=
  (∀ i ∈ st.registered, ∀ j ∈ st.registered, i ≠ j → ∀ t t', st.Has pid i t → st.Has pid j t' →
    t.Live → t'.Live → StacksApart st.machine pid t t') ∧
  ∀ tid t, st.Has pid tid t → t.Live → ∀ w, InStack t.stackAddr w → isPaged st.machine pid w = true

/-- The places that records of the table can have: one more than there are slots. -/
def stackAreaSlots : ℕ := maxThreadsCount + 2

/-- An address of the area of the stacks. -/
def InArea (w : ℕ) : Prop :=
  firstStackTop ≤ w + stackStep * stackAreaSlots ∧ w < HM

structure StackStart (pid : ℕ) (st : StackState) : Prop where
  tree : st.machine.TreeOk pid
  area : ∀ w, InArea w → isPaged st.machine pid w = false
  threads : ∀ tid t, ¬st.Has pid tid t
  registered : st.registered = []

/-- The thread ends with the thread that exits: the count of the process comes to zero, and the
thread has a state other than `THREAD_NOT_EXIST`. -/
def StackState.EndsToo (st : StackState) (pid j : ℕ) (t : StackThread) : Prop :=
  j < maxThreadsCount ∧ t.state ≠ .notExist ∧
    ∀ proc, st.processes pid = some proc → u64 (proc.threadsCount + 2 ^ 64 - 1) = 0

namespace StackCall

/-- A call is made by a live thread of the process. When blocks are allocated, the blocks of the
page tables are marked in `memory_map`, so that they are not taken a second time. -/
def Ok (pid : ℕ) (st : StackState) : StackCall → Prop
  | .register _ => st.machine.Marked pid
  | .clone caller _ _ => st.machine.Marked pid ∧ ∃ t, st.Has pid caller t ∧ t.Live
  | .ready tid | .exit tid => ∃ t, st.Has pid tid t ∧ t.Live

/-- An exit takes the stack of no thread that goes on. -/
def Harmless (pid : ℕ) (st : StackState) : StackCall → Prop
  | .register _ | .ready _ | .clone _ _ _ => True
  | .exit caller => ∀ t, st.Has pid caller t → ∀ j t', j ≠ caller → st.Has pid j t' → t'.Live →
    t'.stackAddr = t.stackAddr → st.EndsToo pid j t'

end StackCall

/-! ## Places -/

/-- The end of the stack at the place `k`. -/
def stackTop (k : ℕ) : ℕ := firstStackTop - stackStep * k

theorem firstStackTop_eq : firstStackTop = 4096 * 17179869183 := by
  decide

theorem stackTop_eq (k : ℕ) : stackTop k = 4096 * (17179869183 - 5 * k) := by
  rw [stackTop, firstStackTop_eq, stackStep]
  omega

theorem area_eq : stackAreaSlots = 2562 := rfl

section Places

variable {k k' w : ℕ}

section

variable (hk : k < stackAreaSlots)
include hk

theorem stackPage_eq (h1 : 1 ≤ i) (h4 : i ≤ 4) :
    u64 (stackTop k + 2 ^ 64 - i * 4096) = 4096 * (17179869183 - 5 * k - i) := by
  rw [area_eq] at hk
  rw [stackTop_eq, u64, show 4096 * (17179869183 - 5 * k) + 2 ^ 64 - i * 4096 =
    4096 * (17179869183 - 5 * k - i) + 2 ^ 64 by omega, Nat.add_mod_right,
    Nat.mod_eq_of_lt (by omega)]

theorem stackPages_lt : ∀ v ∈ stackPages (stackTop k), v < HM := by
  intro v hv
  obtain ⟨i, hi, rfl⟩ := mem_map.mp hv
  have hle : 1 ≤ i ∧ i ≤ 4 := by
    simp only [mem_cons, not_mem_nil, or_false] at hi
    omega
  rw [stackPage_eq hk hle.1 hle.2]
  unfold HM
  omega

theorem mem_stackPages :
    (∃ v ∈ stackPages (stackTop k), w / 4096 = v / 4096) ↔ InStack (stackTop k) w := by
  simp only [stackPages, map_cons, map_nil, mem_cons, not_mem_nil, or_false,
    exists_eq_or_imp, exists_eq_left]
  rw [stackPage_eq hk (by decide) (by decide), stackPage_eq hk (by decide) (by decide),
    stackPage_eq hk (by decide) (by decide), stackPage_eq hk (by decide) (by decide), InStack,
    stackTop_eq]
  rw [area_eq] at hk
  omega

theorem InStack.inArea (h : InStack (stackTop k) w) : InArea w := by
  obtain ⟨h1, h2⟩ := h
  rw [stackTop_eq] at h1 h2
  rw [area_eq] at hk
  rw [InArea, area_eq, firstStackTop_eq, stackStep]
  unfold HM
  omega

theorem InStack.eq (hk' : k' < stackAreaSlots) (h : InStack (stackTop k) w)
    (h' : InStack (stackTop k') w) : k = k' := by
  obtain ⟨h1, h2⟩ := h
  obtain ⟨h3, h4⟩ := h'
  rw [stackTop_eq] at h1 h2 h3 h4
  rw [area_eq] at hk hk'
  omega

theorem inStack_probe : InStack (stackTop k) (stackTop k - 4096) := by
  rw [InStack, stackTop_eq]
  rw [area_eq] at hk
  omega

end

end Places

/-! ## The invariant -/

/-- The invariant of harmless runs. -/
structure Stacks (pid : ℕ) (st : StackState) : Prop where
  tree : st.machine.TreeOk pid
  place : ∀ tid t, st.Has pid tid t →
    tid ≤ maxThreadsCount ∧ ∃ k < stackAreaSlots, t.stackAddr = stackTop k
  mapped : ∀ tid t, st.Has pid tid t → t.Live → ∀ w, InStack t.stackAddr w →
    isPaged st.machine pid w = true
  -- a mapped page of the area belongs to a record, which may be that of a thread that has ended
  owner : ∀ w, InArea w → isPaged st.machine pid w = true →
    ∃ tid t, st.Has pid tid t ∧ InStack t.stackAddr w
  whole : ∀ k < stackAreaSlots, isPaged st.machine pid (stackTop k - 4096) = false →
    ∀ w, InStack (stackTop k) w → isPaged st.machine pid w = false
  present : ∀ i ∈ st.registered, st.threads i ≠ none
  distinct : ∀ i ∈ st.registered, ∀ j ∈ st.registered, i ≠ j → ∀ t t', st.Has pid i t →
    st.Has pid j t' → t.Live → t'.Live → t.stackAddr ≠ t'.stackAddr

namespace Stacks

variable {boot : Boot} {pid : ℕ} {st st' : StackState}

theorem of_start (h : StackStart pid st) : Stacks pid st where
  tree := h.tree
  place tid t ht := absurd ht (h.threads tid t)
  mapped tid t ht := absurd ht (h.threads tid t)
  owner w hw hp := by rw [h.area w hw] at hp; cases hp
  whole k hk _ w hw := h.area w (hw.inArea hk)
  present i hi := by rw [h.registered] at hi; cases hi
  distinct i hi := by rw [h.registered] at hi; cases hi

theorem gap (h : Stacks pid st) (hk : k < stackAreaSlots) :
    isPaged st.machine pid (stackTop k) = false := by
  by_contra hp
  have harea : InArea (stackTop k) := by
    rw [area_eq] at hk
    rw [InArea, stackTop_eq, firstStackTop_eq, stackStep, area_eq]
    unfold HM
    omega
  obtain ⟨tid, t, ht, hin⟩ := h.owner _ harea (Bool.eq_true_of_not_eq_false hp)
  obtain ⟨-, k', hk', haddr⟩ := h.place tid t ht
  obtain ⟨h1, h2⟩ := hin
  rw [haddr, stackTop_eq, stackTop_eq] at h1 h2
  rw [area_eq] at hk hk'
  omega

theorem isPrivate (h : Stacks pid st) : StacksPrivate pid st := by
  refine ⟨fun i hi j hj hne t t' ht ht' hlive hlive' => ?_, h.mapped⟩
  obtain ⟨-, k, hk, haddr⟩ := h.place i t ht
  obtain ⟨-, k', hk', haddr'⟩ := h.place j t' ht'
  have hdistinct := h.distinct i hi j hj hne t t' ht ht' hlive hlive'
  have hkk : k ≠ k' := fun heq => hdistinct (by rw [haddr, haddr', heq])
  have hlower : ∀ {a b : ℕ}, a < stackAreaSlots → b < a →
      stackTop a ≤ 4096 * (17179869183 - 5 * a) ∧
      4096 * (17179869183 - 5 * a + 1) + 4 * 4096 ≤ stackTop b := by
    intro a b ha hab
    rw [stackTop_eq, stackTop_eq]
    rw [area_eq] at ha
    omega
  rw [StacksApart, haddr, haddr']
  rcases Nat.lt_or_gt_of_ne hkk with hlt | hlt
  · refine ⟨17179869183 - 5 * k', ?_, .inr (hlower hk' hlt)⟩
    rw [← stackTop_eq]
    exact h.gap hk'
  · refine ⟨17179869183 - 5 * k, ?_, .inl (hlower hk hlt)⟩
    rw [← stackTop_eq]
    exact h.gap hk

/-! ### Registering -/

theorem findStackTop_spec (h : findStackTop m pid rest (stackTop k) = some top) :
    ∃ k', top = stackTop k' ∧ isPaged m pid (stackTop k' - 4096) = false ∧
      ∀ j, k ≤ j → j < k' → isPaged m pid (stackTop j - 4096) = true := by
  induction rest generalizing k with
  | zero => cases h
  | succ rest ih =>
    rw [ThreadStack.findStackTop] at h
    split at h
    case isTrue hp =>
      have hnext : stackTop k - stackStep = stackTop (k + 1) := by
        rw [stackTop, stackTop, Nat.mul_succ, Nat.sub_sub]
      rw [hnext] at h
      obtain ⟨k', htop, hfree, hbetween⟩ := ih h
      refine ⟨k', htop, hfree, fun j hj hlt => ?_⟩
      rcases Nat.eq_or_lt_of_le hj with rfl | hj
      · exact hp
      · exact hbetween j hj hlt
    case isFalse hp =>
      cases h
      exact ⟨k, rfl, Bool.eq_false_of_not_eq_true hp, fun j hj hlt => by omega⟩

/-- **A place within the area**: each place passed over belongs to a record of its own, and there
are fewer slots than places. -/
theorem findStackTop (h : Stacks pid st)
    (hfind : ThreadStack.findStackTop st.machine pid rest firstStackTop = some top) :
    ∃ k < stackAreaSlots, top = stackTop k ∧
      isPaged st.machine pid (stackTop k - 4096) = false := by
  obtain ⟨k, htop, hfree, hbefore⟩ := findStackTop_spec (k := 0) hfind
  refine ⟨k, Nat.lt_of_not_le fun hle => ?_, htop, hfree⟩
  have howner : ∀ j : ℕ, ∃ tid, j < stackAreaSlots →
      tid ≤ maxThreadsCount ∧ ∃ t, st.Has pid tid t ∧ InStack t.stackAddr (stackTop j - 4096) := by
    intro j
    by_cases hj : j < stackAreaSlots
    · obtain ⟨tid, t, ht, hin⟩ := h.owner _ ((inStack_probe hj).inArea hj)
        (hbefore j (Nat.zero_le _) (hj.trans_le hle))
      exact ⟨tid, fun _ => ⟨(h.place tid t ht).1, t, ht, hin⟩⟩
    · exact ⟨0, fun hj' => absurd hj' hj⟩
  choose tidOf htidOf using howner
  have hcard : (Finset.range stackAreaSlots).card ≤ (Finset.range (maxThreadsCount + 1)).card := by
    refine Finset.card_le_card_of_injOn tidOf (fun j hj => ?_) fun j hj j' hj' heq => ?_
    · exact Finset.mem_coe.mpr (Finset.mem_range.mpr
        (Nat.lt_succ_of_le (htidOf j (Finset.mem_range.mp hj)).1))
    · -- one record has one place
      have hlt := Finset.mem_range.mp (Finset.mem_coe.mp hj)
      have hlt' := Finset.mem_range.mp (Finset.mem_coe.mp hj')
      obtain ⟨-, t, ht, hin⟩ := htidOf j hlt
      obtain ⟨-, t', ht', hin'⟩ := htidOf j' hlt'
      obtain rfl : t = t' := some.inj (ht.1.symm.trans (heq ▸ ht'.1))
      obtain ⟨-, k', hk', haddr⟩ := h.place _ t ht
      rw [haddr] at hin hin'
      exact (InStack.eq hlt hk' (inStack_probe hlt) hin).trans
        (InStack.eq hlt' hk' (inStack_probe hlt') hin').symm
  rw [Finset.card_range, Finset.card_range, stackAreaSlots] at hcard
  omega

theorem free_slot {threads : ℕ → Option StackThread} {start : ℕ}
    (h : getAFreeSlot (slotWords threads) start maxThreadsCount = some tid) :
    threads tid = none ∧ tid ≤ maxThreadsCount := by
  obtain ⟨hslot, -, hlast, -⟩ := getAFreeSlot_spec h
  refine ⟨?_, hlast⟩
  cases ht : threads tid with
  | none => rfl
  | some t => simp [slotWords, ht] at hslot

theorem has_of_update {new : StackThread} {t : StackThread} (hnone : st.threads tid = none)
    (h : st.Has pid i t) :
    StackState.Has { st with
      machine := m
      threads := update st.threads tid (some new)
      registered } pid i t := by
  obtain ⟨ht, hpid⟩ := h
  refine ⟨(update_of_ne ?_ _ _).trans ht, hpid⟩
  rintro rfl
  rw [hnone] at ht
  cases ht

theorem has_update {new : StackThread}
    {t : StackThread} (h : StackState.Has { st with
      machine := m
      threads := update st.threads tid (some new)
      registered } pid i t) : i = tid ∧ t = new ∨ i ≠ tid ∧ st.Has pid i t := by
  obtain ⟨hthread, hpid⟩ := h
  replace hthread : update st.threads tid (some new) i = some t := hthread
  by_cases hi : i = tid
  · subst hi
    rw [update_self] at hthread
    exact .inl ⟨rfl, (some.inj hthread).symm⟩
  · rw [update_of_ne hi] at hthread
    exact .inr ⟨hi, hthread, hpid⟩

/-- **A record is put into a free slot**, with the place `k`, whose pages are mapped. If it is
registered, no live thread has the place. -/
theorem insert (h : Stacks pid st) {new : StackThread} (hok : m.TreeOk pid)
    (hnone : st.threads tid = none) (hlast : tid ≤ maxThreadsCount) (hk : k < stackAreaSlots)
    (hpid : new.pid = pid) (haddr : new.stackAddr = stackTop k)
    (hpaged : ∀ w < HM, isPaged m pid w = true ↔
      InStack (stackTop k) w ∨ isPaged st.machine pid w = true)
    (hreg : ∀ i ∈ registered, i ≠ tid → i ∈ st.registered)
    (hother : tid ∈ registered → ∀ i t, st.Has pid i t → t.Live → t.stackAddr ≠ stackTop k) :
    Stacks pid { st with
      machine := m
      threads := update st.threads tid (some new)
      registered } := by
  constructor
  · exact hok
  · intro i t ht
    rcases has_update ht with ⟨rfl, rfl⟩ | ⟨-, ht⟩
    · exact ⟨hlast, k, hk, haddr⟩
    · exact h.place i t ht
  · intro i t ht hlive w hw
    rcases has_update ht with ⟨rfl, rfl⟩ | ⟨-, ht⟩
    · rw [haddr] at hw
      exact (hpaged w (InStack.inArea hk hw).2).mpr (.inl hw)
    · obtain ⟨-, k', hk', haddr'⟩ := h.place i t ht
      exact (hpaged w (InStack.inArea hk' (haddr' ▸ hw)).2).mpr (.inr (h.mapped i t ht hlive w hw))
  · intro w hw hp
    rcases (hpaged w hw.2).mp hp with hin | hold
    · exact ⟨tid, new, ⟨update_self _ _ _, hpid⟩, haddr ▸ hin⟩
    · obtain ⟨i, t, ht, hin⟩ := h.owner w hw hold
      exact ⟨i, t, has_of_update hnone ht, hin⟩
  · intro k' hk' hprobe w hw
    by_contra hp
    have hlt := (InStack.inArea hk' hw).2
    have hprobe' : ¬isPaged m pid (stackTop k' - 4096) = true := by rw [hprobe]; decide
    rw [hpaged _ (InStack.inArea hk' (inStack_probe hk')).2, not_or] at hprobe'
    rcases (hpaged w hlt).mp (Bool.eq_true_of_not_eq_false hp) with hin | hold
    · obtain rfl := InStack.eq hk hk' hin hw
      exact hprobe'.1 (inStack_probe hk)
    · rw [h.whole k' hk' (Bool.eq_false_of_not_eq_true hprobe'.2) w hw] at hold
      cases hold
  · intro i hi
    rcases eq_or_ne i tid with rfl | hne
    · exact (update_self _ _ _).trans_ne (some_ne_none _)
    · exact (update_of_ne hne _ _).trans_ne (h.present i (hreg i hi hne))
  · intro i hi j hj hne t t' ht ht' hlive hlive'
    rcases has_update ht with ⟨rfl, rfl⟩ | ⟨hi', ht0⟩
    · rcases has_update ht' with ⟨rfl, -⟩ | ⟨-, ht0'⟩
      · exact absurd rfl hne
      · exact haddr ▸ (hother hi j t' ht0' hlive').symm
    · rcases has_update ht' with ⟨rfl, rfl⟩ | ⟨hj', ht0'⟩
      · exact haddr ▸ hother hj i t ht0 hlive
      · exact h.distinct i (hreg i hi hi') j (hreg j hj hj') hne t t' ht0 ht0' hlive hlive'

/-- Registering keeps the invariant, and the blocks that it takes are marked. -/
theorem registerAThread_stacks (h : Stacks pid st) (hboot : boot.totalMemoryBlocksCount ≤ 2 ^ 40)
    (hmarked : st.machine.Marked pid) (hcall : registerAThread boot st pid info = some st') :
    Stacks pid st' ∧ st'.machine.Marked pid := by
  obtain ⟨top, hfind, hcall⟩ := bind_eq_some_iff.mp hcall
  obtain ⟨m1, hmap, hcall⟩ := bind_eq_some_iff.mp hcall
  obtain ⟨m2, htake, hcall⟩ := bind_eq_some_iff.mp hcall
  obtain ⟨tid, htid, hcall⟩ := bind_eq_some_iff.mp hcall
  obtain ⟨k, hk, rfl, hfree⟩ := h.findStackTop hfind
  obtain ⟨hok1, hmarked1, hpaged1, -⟩ :=
    mapPages_spec hboot (stackPages_lt hk) h.tree hmarked hmap
  obtain ⟨hok2, hmarked2, hpaged2⟩ := takeBlocks_spec hok1 hmarked1 htake
  obtain ⟨hnone, hlast⟩ := free_slot htid
  cases hcall
  refine ⟨h.insert hok2 hnone hlast hk rfl rfl (fun w hw => ?_)
    (fun i hi hne => (mem_cons.mp hi).resolve_left hne) fun _ i t ht hlive haddr => ?_, hmarked2⟩
  · rw [hpaged2 w hw, hpaged1 w hw, mem_stackPages hk]
  · -- no live thread has its stack at a place that is not mapped
    have hp := h.mapped i t ht hlive (stackTop k - 4096) (haddr ▸ inStack_probe hk)
    rw [hfree] at hp
    cases hp

/-! ### Cloning and starting -/

theorem sysClone_stacks (h : Stacks pid st) (hmarked : st.machine.Marked pid) {caller flags : ℕ}
    {t0 : StackThread} (ht0 : st.Has pid caller t0) (hlive0 : t0.Live)
    (hcall : sysClone boot st caller flags info = some st') : Stacks pid st' := by
  rw [sysClone] at hcall
  split at hcall
  · cases hcall
    exact h
  obtain ⟨parent, hparent, hcall⟩ := bind_eq_some_iff.mp hcall
  cases ht0.1.symm.trans hparent
  obtain ⟨proc, -, hcall⟩ := bind_eq_some_iff.mp hcall
  split at hcall
  · cases hcall
    exact h
  obtain ⟨tid, htid, hcall⟩ := bind_eq_some_iff.mp hcall
  obtain ⟨m, htake, hcall⟩ := bind_eq_some_iff.mp hcall
  cases hcall
  obtain ⟨hnone, hlast⟩ := free_slot htid
  obtain ⟨hok, -, hpaged⟩ := takeBlocks_spec h.tree hmarked htake
  obtain ⟨-, k, hk, haddr⟩ := h.place caller t0 ht0
  refine h.insert hok hnone hlast hk ht0.2 haddr (fun w hw => ?_) (fun i hi _ => hi)
    fun hmem => absurd hnone (h.present tid hmem)
  -- the new thread has the stack of its caller, which is mapped
  rw [hpaged w hw]
  exact (or_iff_right_of_imp fun hin => h.mapped caller t0 ht0 hlive0 w (haddr ▸ hin)).symm

/-- A change of the states of threads in which no ended thread comes back. -/
theorem of_states (h : Stacks pid st) {threads : ℕ → Option StackThread}
    {processes : ℕ → Option StackProcess}
    (hback : ∀ j t', threads j = some t' → ∃ t, st.threads j = some t ∧ t'.pid = t.pid ∧
      t'.stackAddr = t.stackAddr ∧ (t'.Live → t.Live))
    (hforth : ∀ j t, st.threads j = some t → ∃ t', threads j = some t' ∧ t'.pid = t.pid ∧
      t'.stackAddr = t.stackAddr) :
    Stacks pid { st with threads, processes } := by
  have hold : ∀ j t', StackState.Has { st with threads, processes } pid j t' → ∃ t, st.Has pid j t ∧
      t'.stackAddr = t.stackAddr ∧ (t'.Live → t.Live) := by
    rintro j t' ⟨ht', hpid⟩
    obtain ⟨t, ht, hpid', haddr, hlive⟩ := hback j t' ht'
    exact ⟨t, ⟨ht, hpid'.symm.trans hpid⟩, haddr, hlive⟩
  constructor
  · exact h.tree
  · intro j t' ht'
    obtain ⟨t, ht, haddr, -⟩ := hold j t' ht'
    rw [haddr]
    exact h.place j t ht
  · intro j t' ht' hlive' w hw
    obtain ⟨t, ht, haddr, hlive⟩ := hold j t' ht'
    exact h.mapped j t ht (hlive hlive') w (haddr ▸ hw)
  · intro w hw hp
    obtain ⟨j, t, ⟨ht, hpid⟩, hin⟩ := h.owner w hw hp
    obtain ⟨t', ht', hpid', haddr⟩ := hforth j t ht
    exact ⟨j, t', ⟨ht', hpid'.trans hpid⟩, haddr ▸ hin⟩
  · exact h.whole
  · intro i hi hnone
    obtain ⟨t, ht⟩ := ne_none_iff_exists'.mp (h.present i hi)
    obtain ⟨t', ht', -⟩ := hforth i t ht
    exact some_ne_none t' (ht'.symm.trans hnone)
  · intro i hi j hj hne t t' ht ht' hlive hlive'
    obtain ⟨u, hu, haddr, hlive1⟩ := hold i t ht
    obtain ⟨u', hu', haddr', hlive2⟩ := hold j t' ht'
    rw [haddr, haddr']
    exact h.distinct i hi j hj hne u u' hu hu' (hlive1 hlive) (hlive2 hlive')

theorem ready_stacks (h : Stacks pid st) {t0 : StackThread} (ht0 : st.Has pid tid t0)
    (hlive0 : t0.Live) : Stacks pid
      { st with threads := modify st.threads tid fun t => { t with state := .ready } } := by
  refine h.of_states (fun j t' ht' => ?_) fun j t ht => ?_
  · obtain ⟨t, ht, rfl⟩ := modify_eq_some.mp ht'
    refine ⟨t, ht, by split_ifs <;> rfl, by split_ifs <;> rfl, ?_⟩
    split_ifs with hj
    · subst hj
      cases ht0.1.symm.trans ht
      exact fun _ => hlive0
    · exact id
  · refine ⟨_, modify_eq_some.mpr ⟨t, ht, rfl⟩, by split_ifs <;> rfl, by split_ifs <;> rfl⟩

/-! ### Exits -/

/-- What an exit leaves: the pages of the stack are unmapped, and the thread and those that end with
it have ended. -/
structure ThreadExited (st : StackState) (tid : ℕ) (t : StackThread) (st' : StackState) : Prop where
  machine : st'.machine = unmapPages t.pid (stackPages t.stackAddr) st.machine
  registered : st'.registered = st.registered
  back : ∀ j u', st'.threads j = some u' → ∃ u, st.threads j = some u ∧ u'.pid = u.pid ∧
    u'.stackAddr = u.stackAddr ∧
      (u'.Live → u.Live ∧ j ≠ tid ∧ (u.pid = t.pid → ¬st.EndsToo t.pid j u))
  forth : ∀ j u, st.threads j = some u → ∃ u', st'.threads j = some u' ∧ u'.pid = u.pid ∧
    u'.stackAddr = u.stackAddr ∧ (u.Live → j ≠ tid → ¬st.EndsToo t.pid j u → u'.Live)

theorem not_live_ended (t : StackThread) :
    ¬StackThread.Live { t with state := .endedButNotCleaned } :=
  fun h => h.1 rfl

theorem exit_exited (hcall : markCurrentThreadAsEnded st tid = some st') :
    ∃ t, st.threads tid = some t ∧ ThreadExited st tid t st' := by
  obtain ⟨t, ht, hcall⟩ := bind_eq_some_iff.mp hcall
  obtain ⟨proc, hproc, hcall⟩ := bind_eq_some_iff.mp hcall
  refine ⟨t, ht, ?_⟩
  have hends : ∀ j u, st.EndsToo t.pid j u ↔ j < maxThreadsCount ∧ u.state ≠ .notExist ∧
      u64 (proc.threadsCount + 2 ^ 64 - 1) = 0 := by
    intro j u
    rw [StackState.EndsToo, hproc]
    simp only [some.injEq, forall_eq']
  obtain rfl := some.inj hcall
  by_cases hzero : u64 (proc.threadsCount + 2 ^ 64 - 1) = 0
  · -- the process ends: the loop over the table comes after the exit of the thread
    rw [if_pos (Nat.le_zero.mpr hzero), markProcessAsEnded]
    refine ⟨rfl, rfl, fun j u' hu' => ?_, fun j u hu => ?_⟩ <;> dsimp only at *
    · obtain ⟨x, hx, rfl⟩ := sweep_eq_some.mp hu'
      obtain ⟨u, hu, rfl⟩ := modify_eq_some.mp hx
      refine ⟨u, hu, by split_ifs <;> rfl, by split_ifs <;> rfl, fun hlive => ?_⟩
      split_ifs at hlive with hj hswept hswept
      · exact absurd hlive (not_live_ended _)
      · exact absurd hlive (not_live_ended _)
      · exact absurd hlive (not_live_ended _)
      · refine ⟨hlive, hj, fun hpid hendsToo => hswept ?_⟩
        obtain ⟨hlt, hstate, -⟩ := (hends j u).mp hendsToo
        exact ⟨hlt, by simp [hpid, hstate, hlive.1]⟩
    · refine ⟨_, sweep_eq_some.mpr ⟨_, modify_eq_some.mpr ⟨u, hu, rfl⟩, rfl⟩, by split_ifs <;> rfl,
        by split_ifs <;> rfl, fun hlive hj hnot => ?_⟩
      rw [if_neg hj, if_neg]
      · exact hlive
      · rintro ⟨hlt, hp⟩
        refine hnot ((hends j u).mpr ⟨hlt, ?_, hzero⟩)
        simp only [Bool.and_eq_true, bne_iff_ne] at hp
        exact hp.1.2
  · rw [if_neg (by omega)]
    refine ⟨rfl, rfl, fun j u' hu' => ?_, fun j u hu => ?_⟩
    · obtain ⟨u, hu, rfl⟩ := modify_eq_some.mp hu'
      refine ⟨u, hu, by split_ifs <;> rfl, by split_ifs <;> rfl, fun hlive => ?_⟩
      split_ifs at hlive with hj
      · exact absurd hlive (not_live_ended _)
      · exact ⟨hlive, hj, fun _ hendsToo => hzero ((hends j u).mp hendsToo).2.2⟩
    · refine ⟨_, modify_eq_some.mpr ⟨u, hu, rfl⟩, by split_ifs <;> rfl, by split_ifs <;> rfl,
        fun hlive hj _ => ?_⟩
      rwa [if_neg hj]

theorem paged_exited (h : Stacks pid st) {t : StackThread} (hpid : t.pid = pid)
    (hk : k < stackAreaSlots) (haddr : t.stackAddr = stackTop k) (he : ThreadExited st tid t st') :
    st'.machine.TreeOk pid ∧ ∀ w < HM, isPaged st'.machine pid w = true ↔
      ¬InStack (stackTop k) w ∧ isPaged st.machine pid w = true := by
  rw [he.machine, hpid, haddr]
  obtain ⟨hok, hpaged, -⟩ := unmapPages_spec (stackPages_lt hk) h.tree
  refine ⟨hok, fun w hw => ?_⟩
  rw [hpaged w hw, ← mem_stackPages hk]
  simp

/-- The pages of a place that no live thread has are unmapped. -/
theorem unmap (h : Stacks pid st) (hok : m.TreeOk pid) (hk : k < stackAreaSlots)
    (hpaged : ∀ w < HM, isPaged m pid w = true ↔
      ¬InStack (stackTop k) w ∧ isPaged st.machine pid w = true)
    (hnone : ∀ j u, st.Has pid j u → u.Live → u.stackAddr ≠ stackTop k) :
    Stacks pid { st with machine := m } := by
  refine ⟨hok, h.place, ?_, ?_, ?_, h.present, h.distinct⟩
  · intro j u hu hlive w hw
    obtain ⟨-, k', hk', hplace⟩ := h.place j u hu
    refine (hpaged w (InStack.inArea hk' (hplace ▸ hw)).2).mpr
      ⟨fun hin => hnone j u hu hlive ?_, h.mapped j u hu hlive w hw⟩
    rw [hplace, InStack.eq hk hk' hin (hplace ▸ hw)]
  · exact fun w hw hp => h.owner w hw ((hpaged w hw.2).mp hp).2
  · intro k' hk' hprobe w hw
    by_contra hp
    obtain ⟨hout, hold⟩ :=
      (hpaged w (InStack.inArea hk' hw).2).mp (Bool.eq_true_of_not_eq_false hp)
    -- the place is not the one that was unmapped, so its first page was not mapped before
    have hkk : k ≠ k' := fun heq => hout (heq ▸ hw)
    have hprobe' : isPaged st.machine pid (stackTop k' - 4096) = false := by
      by_contra hp'
      have hnow := (hpaged _ (InStack.inArea hk' (inStack_probe hk')).2).mpr
        ⟨fun hin => hkk (InStack.eq hk hk' hin (inStack_probe hk')),
          Bool.eq_true_of_not_eq_false hp'⟩
      rw [hprobe] at hnow
      cases hnow
    rw [h.whole k' hk' hprobe' w hw] at hold
    cases hold

/-- A harmless exit keeps the invariant. -/
theorem exit_stacks (h : Stacks pid st) {t : StackThread} (ht : st.Has pid tid t)
    (hharmless : (StackCall.exit tid).Harmless pid st) (he : ThreadExited st tid t st') :
    Stacks pid st' := by
  obtain ⟨-, k, hk, haddr⟩ := h.place tid t ht
  obtain ⟨hok, hpaged⟩ := h.paged_exited ht.2 hk haddr he
  -- first the states change, then the pages are unmapped
  have hstates : Stacks pid { st with threads := st'.threads, processes := st'.processes } := by
    refine h.of_states (fun j u' hu' => ?_) fun j u hu => ?_
    · obtain ⟨u, hu, hpid, haddr', hlive⟩ := he.back j u' hu'
      exact ⟨u, hu, hpid, haddr', fun hlive' => (hlive hlive').1⟩
    · obtain ⟨u', hu', hpid, haddr', -⟩ := he.forth j u hu
      exact ⟨u', hu', hpid, haddr'⟩
  have hunmapped := hstates.unmap hok hk hpaged fun j u' hu' hlive' hsame => ?_
  · rwa [← he.registered] at hunmapped
  · obtain ⟨u, hu, hpid, haddr', hlive⟩ := he.back j u' hu'.1
    obtain ⟨hu_live, hj, hnot⟩ := hlive hlive'
    have hhas : st.Has pid j u := ⟨hu, hpid.symm.trans hu'.2⟩
    refine hnot (hhas.2.trans ht.2.symm) ?_
    rw [ht.2]
    exact hharmless t ht j u hj hhas hu_live (haddr'.symm.trans (hsame.trans haddr.symm))

/-- **An exit** keeps the stacks private exactly if it is harmless. -/
theorem exit_iff (h : Stacks pid st) {t : StackThread} (ht : st.Has pid tid t)
    (he : ThreadExited st tid t st') :
    StacksPrivate pid st' ↔ (StackCall.exit tid).Harmless pid st := by
  constructor
  · rintro ⟨-, hmapped⟩ t1 ht1 j u hj hu hlive hsame
    cases ht.1.symm.trans ht1.1
    by_contra hnot
    obtain ⟨-, k, hk, haddr⟩ := h.place tid t ht
    obtain ⟨-, hpaged⟩ := h.paged_exited ht.2 hk haddr he
    obtain ⟨u', hu', hpid', haddr', hlive'⟩ := he.forth j u hu.1
    rw [ht.2] at hlive'
    have hprobe := hmapped j u' ⟨hu', hpid'.trans hu.2⟩ (hlive' hlive hj hnot) (stackTop k - 4096)
      (by rw [haddr', hsame, haddr]; exact inStack_probe hk)
    exact ((hpaged _ (InStack.inArea hk (inStack_probe hk)).2).mp hprobe).1 (inStack_probe hk)
  · intro hharmless
    exact (h.exit_stacks ht hharmless he).isPrivate

/-! ### Runs -/

/-- **One call.** A harmless call keeps the invariant, and a call that keeps the stacks private is
harmless. -/
theorem step (h : Stacks pid st) (hboot : boot.totalMemoryBlocksCount ≤ 2 ^ 40) {c : StackCall}
    (hok : c.Ok pid st) (hstep : c.apply boot pid st = some st') :
    (c.Harmless pid st → Stacks pid st') ∧ (StacksPrivate pid st' → c.Harmless pid st) := by
  cases c with
  | register info => exact ⟨fun _ => (h.registerAThread_stacks hboot hok hstep).1, fun _ => trivial⟩
  | ready tid =>
    obtain ⟨t, ht, hlive⟩ := hok
    cases hstep
    exact ⟨fun _ => h.ready_stacks ht hlive, fun _ => trivial⟩
  | clone caller flags info =>
    obtain ⟨hmarked, t, ht, hlive⟩ := hok
    exact ⟨fun _ => h.sysClone_stacks hmarked ht hlive hstep, fun _ => trivial⟩
  | exit tid =>
    obtain ⟨t, ht, -⟩ := hok
    obtain ⟨t1, ht1, he⟩ := exit_exited hstep
    cases ht.1.symm.trans ht1
    exact ⟨fun hharmless => h.exit_stacks ht hharmless he, (h.exit_iff ht he).mp⟩

end Stacks

/-- **Stacks are private as long as the calls are harmless**, from a process without threads and
mappings in the area of the stacks, and the next call keeps them private exactly if it is
harmless. -/
theorem stacksPrivate_iff_harmless {boot : Boot} (hboot : boot.totalMemoryBlocksCount ≤ 2 ^ 40)
    {pid : ℕ} {st₀ st : StackState} (hstart : StackStart pid st₀) {calls : List StackCall}
    (hrun : Run (StackCall.apply boot pid) (fun st c => c.Ok pid st ∧ c.Harmless pid st) st₀ calls
      st) :
    StacksPrivate pid st ∧ ∀ (c : StackCall) (st' : StackState), c.Ok pid st →
      c.apply boot pid st = some st' → (StacksPrivate pid st' ↔ c.Harmless pid st) := by
  exact hrun.iff_of_step _ (fun _ h => h.isPrivate) (fun _ _ _ h => h.step hboot)
    (Stacks.of_start hstart)

/-! ## A process whose thread is cloned -/

def smallStackBoot : Boot :=
  ⟨HM + 4096, 64, smallBoot.hm_le, smallBoot.endKernel_lt, by decide⟩

def smallProcess : StackState where
  machine := smallMachine
  threads _ := none
  processes pid := if pid = 1 then some ⟨.running, 0⟩ else none
  registered := []

theorem smallProcess_start : StackStart 1 smallProcess where
  tree := treeOk_of_empty smallMachine_empty
  area _ _ := rfl
  threads _ _ h := nomatch h.1
  registered := rfl

/-- A thread is registered, made ready, and makes a clone of itself. -/
def cloneCalls : List StackCall :=
  [.register fun _ _ => 0, .ready 2, .clone 2 Sched.cloneThread fun _ _ => 0]

/-- The clone has the slot 1. When it exits, the thread goes on without its stack. -/
theorem cloneCalls_run : ∃ st st', Run (StackCall.apply smallStackBoot 1)
    (fun st c => c.Ok 1 st ∧ c.Harmless 1 st) smallProcess cloneCalls st ∧
      st.Has 1 1 ⟨1, 1, .ready, firstStackTop⟩ ∧
      (StackCall.exit 1).apply smallStackBoot 1 st = some st' ∧
      st'.Has 1 2 ⟨2, 1, .ready, firstStackTop⟩ ∧
      isPaged st'.machine 1 (firstStackTop - 4096) = false := by
  -- the states on the way, and what is needed of them
  obtain ⟨st1, hst1, h1, st, hst, h, st', hst', h2', hpaged⟩ :
      ∃ st1 ∈ (StackCall.register fun _ _ => 0).apply smallStackBoot 1 smallProcess,
        st1.threads 2 = some ⟨2, 1, .notExist, firstStackTop⟩ ∧
      ∃ st ∈ (StackCall.clone 2 Sched.cloneThread fun _ _ => 0).apply smallStackBoot 1
          { st1 with threads := modify st1.threads 2 fun t => { t with state := .ready } },
        st.threads 1 = some ⟨1, 1, .ready, firstStackTop⟩ ∧
      ∃ st' ∈ (StackCall.exit 1).apply smallStackBoot 1 st,
        st'.threads 2 = some ⟨2, 1, .ready, firstStackTop⟩ ∧
          isPaged st'.machine 1 (firstStackTop - 4096) = false := by
    decide +kernel
  -- the calls are made by live threads, and the tables are marked
  have hmarked := ((Stacks.of_start smallProcess_start).registerAThread_stacks (by decide)
    smallMachine_marked hst1).2
  have hready : StackCall.Ok 1 st1 (.ready 2) := ⟨_, ⟨h1, rfl⟩, by decide⟩
  have h2 : modify st1.threads 2 (fun t => { t with state := .ready }) 2 =
      some ⟨2, 1, .ready, firstStackTop⟩ :=
    modify_eq_some.mpr ⟨_, h1, rfl⟩
  have hclone : StackCall.Ok 1
      { st1 with threads := modify st1.threads 2 fun t => { t with state := .ready } }
      (.clone 2 Sched.cloneThread fun _ _ => 0) :=
    ⟨hmarked, _, ⟨h2, rfl⟩, by decide⟩
  exact ⟨_, st', .snoc (.snoc (.snoc (.nil _) ⟨smallMachine_marked, trivial⟩ hst1)
    ⟨hready, trivial⟩ rfl) ⟨hclone, trivial⟩ hst, ⟨h, rfl⟩, hst', ⟨h2', rfl⟩, hpaged⟩

/-- The thread and its clone: the exit of one of them is not harmless. -/
theorem stacksPrivate_iff_harmless_clone : ∃ st st', StacksPrivate 1 st ∧
    (StackCall.exit 1).apply smallStackBoot 1 st = some st' ∧
      ¬(StackCall.exit 1).Harmless 1 st := by
  obtain ⟨st, st', hrun, hclone, hexit, hthread, hpaged⟩ := cloneCalls_run
  obtain ⟨hprivate, hnext⟩ :=
    stacksPrivate_iff_harmless (by decide) smallProcess_start hrun
  refine ⟨st, st', hprivate, hexit, fun hharmless => ?_⟩
  have hprivate' := (hnext (.exit 1) st' ⟨_, hclone, by decide⟩ hexit).mpr hharmless
  have hstack := hprivate'.2 2 _ hthread (by decide) (firstStackTop - 4096) ⟨by decide, by decide⟩
  rw [hpaged] at hstack
  cases hstack

/-- **A thread loses its stack** when its clone exits. -/
theorem exit_of_clone_takes_stack : ∃ st, StackStart 1 smallProcess ∧
    Run (StackCall.apply smallStackBoot 1) (fun st c => c.Ok 1 st) smallProcess
      (cloneCalls ++ [.exit 1]) st ∧
    st.Has 1 2 ⟨2, 1, .ready, firstStackTop⟩ ∧
    isPaged st.machine 1 (firstStackTop - 4096) = false ∧ ¬StacksPrivate 1 st := by
  obtain ⟨st, st', hrun, hclone, hexit, hthread, hpaged⟩ := cloneCalls_run
  refine ⟨st', smallProcess_start, .snoc (hrun.mono fun _ _ h => h.1) ⟨_, hclone, by decide⟩ hexit,
    hthread, hpaged, fun hprivate => ?_⟩
  have hstack := hprivate.2 2 _ hthread (by decide) (firstStackTop - 4096) ⟨by decide, by decide⟩
  rw [hpaged] at hstack
  cases hstack

end CarrotOS.ThreadStack
