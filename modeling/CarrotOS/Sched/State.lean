import CarrotOS.Lib.Table
import CarrotOS.Sched.Basic
import CarrotOS.Time

/-!
# The scheduler (`core/scheduler.h`, `core/interrupt.h`)

A core keeps the number of the thread it runs in the word at `gs:8`, and 0 when it is idle. A timer
tick of a core makes sleeping threads ready whose time has come, looks round robin for a ready
thread, and switches to it. Threads that block mark themselves and then give up the core; whoever
has what they wait for marks them ready.

A null pointer that is followed stops the kernel, and so does a call that returns no value: such a
step has no successor.
-/

namespace CarrotOS.Sched

open Word Table Function

/-! ## The tables -/

/-- The part of `thread_info_t` that the scheduler and the signals use. -/
structure Thread where
  pid : ℕ
  tid : ℕ
  state : ThreadState
  wakeupTime : Timeval
  signal : ℕ
  signalMask : ℕ
  sleepFlagAddr : ℕ
  returnCode : ℕ
  deriving DecidableEq, Repr

def Thread.Gone (t : Thread) : Prop :=
  t.state = .endedButNotCleaned ∨ t.state = .dead

instance : DecidablePred Thread.Gone := fun _ => inferInstanceAs (Decidable (_ ∨ _))

/-- The record that `register_a_thread` fills in. -/
def newThread (pid tid : ℕ) : Thread :=
  { pid := pid, tid := tid, state := .notExist, wakeupTime := ⟨0, 0⟩, signal := 0, signalMask := 0,
    sleepFlagAddr := 0, returnCode := 0 }

/-- The part of `process_info_t` that the scheduler and the signals use, and its address. -/
structure Process where
  addr : ℕ
  state : ProcessState
  signal : ℕ
  threadsCount : ℕ
  parentPid : ℕ
  returnCode : ℕ
  deriving DecidableEq, Repr

/-- The address of the field `lock` of a process. -/
def Process.lockAddr (p : Process) : ℕ :=
  p.addr + 664

/-- The tables, and `gs:8` of each core. Every function that puts a thread into the table sets its
`tid` to the index. -/
structure System (κ : Type) where
  threads : ℕ → Option Thread
  processes : ℕ → Option Process
  current : κ → ℕ
  tid_eq : ∀ i t, threads i = some t → t.tid = i

variable {κ : Type} [DecidableEq κ]

namespace System

def modify (s : System κ) (i : ℕ) (g : Thread → Thread) (hg : ∀ t, (g t).tid = t.tid) :
    System κ where
  threads := Table.modify s.threads i g
  processes := s.processes
  current := s.current
  tid_eq a t ht := by
    obtain ⟨t₀, ht₀, rfl⟩ := modify_eq_some.mp ht
    split_ifs
    · rw [hg, s.tid_eq a t₀ ht₀]
    · exact s.tid_eq a t₀ ht₀

/-- A loop over the thread table whose rounds change the threads that pass a test. -/
def sweep (s : System κ) (p : ℕ → Thread → Bool) (g : Thread → Thread)
    (hg : ∀ t, (g t).tid = t.tid) : System κ where
  threads := Table.sweep maxThreadsCount p g s.threads
  processes := s.processes
  current := s.current
  tid_eq a t ht := by
    obtain ⟨t₀, ht₀, rfl⟩ := sweep_eq_some.mp ht
    split_ifs
    · rw [hg, s.tid_eq a t₀ ht₀]
    · exact s.tid_eq a t₀ ht₀

omit [DecidableEq κ] in
@[simp]
theorem threads_modify (s : System κ) (i : ℕ) (g : Thread → Thread)
    (hg : ∀ t, (g t).tid = t.tid) : (s.modify i g hg).threads = Table.modify s.threads i g :=
  rfl

omit [DecidableEq κ] in
@[simp]
theorem threads_sweep (s : System κ) (p : ℕ → Thread → Bool) (g : Thread → Thread)
    (hg : ∀ t, (g t).tid = t.tid) :
    (s.sweep p g hg).threads = Table.sweep maxThreadsCount p g s.threads :=
  rfl

def insert (s : System κ) (t : Thread) : System κ where
  threads := update s.threads t.tid (some t)
  processes := s.processes
  current := s.current
  tid_eq a u hu := by
    by_cases ha : a = t.tid
    · subst ha
      rw [update_self] at hu
      rw [Option.some.inj hu]
    · rw [update_of_ne ha] at hu
      exact s.tid_eq a u hu

def setCurrent (s : System κ) (c : κ) (tid : ℕ) : System κ :=
  { s with current := update s.current c tid }

def hasState (s : System κ) (i : ℕ) (state : ThreadState) : Bool :=
  (s.threads i).any fun t => t.state == state

end System

/-! ## Ticks -/

theorem Thread.ready_tid (t : Thread) : { t with state := .ready }.tid = t.tid := rfl

/-- `handle_slepping_thread`. The clock is read once for every thread that sleeps. -/
def handleSleppingThread (clock : ℕ → Timeval) (s : System κ) : System κ :=
  s.sweep (fun i t => t.state == .blockedOther && laterOrSame (clock i) t.wakeupTime)
    (fun t => { t with state := .ready }) Thread.ready_tid

/-- The search of the ticks: the first ready thread behind the current one, and 0 if there is
none. -/
def nextReady (s : System κ) (currentThreadId : ℕ) : ℕ :=
  (((List.range' 1 (maxThreadsCount - 1)).map fun i =>
    (currentThreadId + i) % maxThreadsCount).find?
    fun idx => idx != 0 && s.hasState idx .ready).getD 0

/-- `end_thread`, without the blocks that it gives back. -/
def endThread (s : System κ) (tid returnCode : ℕ) : Option (System κ) := do
  let _ ← s.threads tid
  some (s.modify tid
    (fun t => { t with
      state := .dead
      returnCode := if returnCode = 2 ^ 64 - 2 then t.returnCode else returnCode }) fun _ => rfl)

/-- The end of a tick that has found a thread: it runs now on the core. -/
def runThread (s : System κ) (c : κ) (newTid : ℕ) : Option (ℕ × System κ) := do
  let newThreadInfo ← s.threads newTid
  some (newTid, (s.modify newTid (fun t => { t with state := .running }) fun _ => rfl).setCurrent c
    newThreadInfo.tid)

/-- `timer_tick_from_idle`: the thread that runs next. -/
def timerTickFromIdle (clock : ℕ → Timeval) (s : System κ) (c : κ) : Option (ℕ × System κ) :=
  let s := handleSleppingThread clock s
  let newTid := nextReady s 0
  if newTid > 0 then runThread s c newTid else some (0, s.setCurrent c 0)

/-- A thread that has ended is cleaned up by the tick of its core. -/
def endCurrent (s : System κ) (currentThreadId : ℕ) : Option (System κ) :=
  if s.hasState currentThreadId .endedButNotCleaned then
    endThread s currentThreadId (2 ^ 64 - 1)
  else some s

/-- A thread that is still running goes back among the ready ones when its core switches. -/
def preempt (s : System κ) (currentThreadId : ℕ) : System κ :=
  if s.hasState currentThreadId .running then
    s.modify currentThreadId (fun t => { t with state := .ready }) Thread.ready_tid
  else s

/-- `timer_tick_from_non_idle`. With a current thread that is `THREAD_READY` and no other ready
thread the function ends without a value. -/
def timerTickFromNonIdle (clock : ℕ → Timeval) (s : System κ) (c : κ) :
    Option (ℕ × System κ) := do
  let currentThreadId := s.current c
  let _ ← s.threads currentThreadId
  let s := handleSleppingThread clock s
  let newTid := nextReady s currentThreadId
  let s ← endCurrent s currentThreadId
  if newTid > 0 then runThread (preempt s currentThreadId) c newTid
  else if s.hasState currentThreadId .running then some (currentThreadId, s)
  else if !s.hasState currentThreadId .ready then some (0, s.setCurrent c 0)
  else none

/-- `timer_tick1`, the tick of a thread that gives up its core. -/
def timerTick1 (clock : ℕ → Timeval) (s : System κ) (c : κ) : Option (ℕ × System κ) := do
  let currentThreadId := s.current c
  let _ ← s.threads currentThreadId
  let s := handleSleppingThread clock s
  let newTid := nextReady s currentThreadId
  let s ← endCurrent s currentThreadId
  if newTid > 1 then runThread (preempt s currentThreadId) c newTid
  else some (0, s.setCurrent c 0)

/-- `tick_interrupt_handler` looks at `gs:8` to choose the tick. -/
def tickInterruptHandler (clock : ℕ → Timeval) (s : System κ) (c : κ) : Option (ℕ × System κ) :=
  if s.current c = 0 then timerTickFromIdle clock s c else timerTickFromNonIdle clock s c

/-! ## Blocking and waking -/

omit [DecidableEq κ] in
/-- `kernel_thread_sleep` up to the call of `scheduler_yeild`. -/
def kernelThreadSleep (s : System κ) (c : κ) (now : Timeval) (durationUs : ℕ) :
    Option (System κ) := do
  let tid := s.current c
  let _ ← s.threads tid
  some (s.modify tid
    (fun t => { t with wakeupTime := addTimeUs now (u32 durationUs), state := .blockedOther })
    fun _ => rfl)

omit [DecidableEq κ] in
/-- `sleep_by_resource` up to the call of `scheduler_yeild`. -/
def sleepByResource (s : System κ) (c : κ) (flagAddr : ℕ) (state : ThreadState) :
    Option (System κ) := do
  let tid := s.current c
  let _ ← s.threads tid
  some (s.modify tid
    (fun t => { t with
      sleepFlagAddr := flagAddr
      state := if state = .notExist then .blockedOther else state }) fun _ => rfl)

omit [DecidableEq κ] in
/-- A wake-up: a round of one of the loops that look for threads which sleep on a resource and
make them ready. -/
def wake (s : System κ) (tid : ℕ) : Option (System κ) := do
  let t ← s.threads tid
  if t.state.blocked then
    some (s.modify tid (fun t => { t with state := .ready }) fun _ => rfl)
  else some s

end CarrotOS.Sched
