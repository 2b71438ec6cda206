import CarrotOS.Sched.State

/-!
# Exits and signals (`core/scheduler.h`, `core/interrupt.h`, `core/ipc/signal.h`, `syscall2.h`)

A thread that exits is marked and stays in the table; the next tick of its core makes it
`THREAD_DEAD`. A signal is delivered by a new thread of the process that runs the handler, while all
the other threads of the process wait; `sys_rt_sigreturn` ends the handler and makes the waiting
threads ready.

`register_a_thread` counts the new thread in a word of the process table that is not the record of
the process; records of processes are therefore changed by steps of their own.
-/

namespace CarrotOS.Sched

open Word Option

variable {κ : Type}

def sigKill : ℕ := 9

def sigStop : ℕ := 19

def System.modifyProcess (s : System κ) (pid : ℕ) (g : Process → Process) : System κ :=
  { s with processes := Table.modify s.processes pid g }

def System.full (s : System κ) : Bool :=
  (List.range maxThreadsCount).all fun i => (s.threads i).isSome

/-! ## Exits -/

/-- `mark_process_as_ended`, for the process that is running on the core. -/
def markProcessAsEnded (s : System κ) (c : κ) : Option (System κ) := do
  let curr ← s.threads (s.current c)
  let pid := curr.pid
  let _ ← s.processes pid
  let s := s.modifyProcess pid fun p => { p with state := .endedButNotCleaned }
  some (s.sweep
    (fun _ t => t.pid == pid && t.state != .notExist && t.state != .endedButNotCleaned)
    (fun t => { t with state := .endedButNotCleaned }) fun _ => rfl)

/-- `mark_current_thread_as_ended`, without the stack pages that it gives back. -/
def markCurrentThreadAsEnded (s : System κ) (c : κ) (returnCode : ℕ) : Option (System κ) := do
  let tid := s.current c
  let curr ← s.threads tid
  let s := s.modify tid
    (fun t => { t with state := .endedButNotCleaned, returnCode := returnCode }) fun _ => rfl
  let proc ← s.processes curr.pid
  let threadsCount := u64 (proc.threadsCount + 2 ^ 64 - 1)
  let s := s.modifyProcess curr.pid fun p => { p with threadsCount := threadsCount }
  if threadsCount ≤ 0 then markProcessAsEnded s c else some s

theorem markCurrentThreadAsEnded_eq {s : System κ} {c : κ} {curr : Thread} {proc : Process}
    (hcurr : s.threads (s.current c) = some curr) (hproc : s.processes curr.pid = some proc)
    (returnCode : ℕ) :
    let s1 := (s.modify (s.current c) (fun t =>
      { t with state := .endedButNotCleaned, returnCode := returnCode }) fun _ => rfl).modifyProcess
        curr.pid fun p => { p with threadsCount := u64 (proc.threadsCount + 2 ^ 64 - 1) }
    markCurrentThreadAsEnded s c returnCode = if u64 (proc.threadsCount + 2 ^ 64 - 1) ≤ 0 then
      markProcessAsEnded s1 c else some s1 := by
  unfold markCurrentThreadAsEnded
  dsimp only
  rw [hcurr, bind_eq_bind, bind_some]
  change Option.bind (s.processes curr.pid) _ = _
  rw [hproc, bind_some]

/-- `stop_process`. The test of the pointer is the wrong way round, so the loop passes over all
threads, and follows the first null pointer. -/
def stopProcess (s : System κ) (_pid : ℕ) : Option (System κ) :=
  if s.full then some s else none

/-- The children of a process that `end_process` counts, after they have been given to another
parent. -/
def System.runningChildren (s : System κ) (pid : ℕ) : ℕ :=
  (List.range maxProcessesCount).countP fun i => (s.processes i).any fun p =>
    p.parentPid == pid && p.state != .stopped && p.state != .endedButNotCleaned &&
      p.state != .notExist

/-- `end_process`, without the memory that it gives back. -/
def endProcess (s : System κ) (pid returnCode : ℕ) : Option (System κ) := do
  let _ ← s.processes pid
  let s := s.modifyProcess pid fun p => { p with state := .stopped }
  let s := { s with
    processes := Table.sweep maxProcessesCount (fun _ p => p.parentPid == pid)
      (fun p => { p with parentPid := 1 }) s.processes }
  let s := s.modifyProcess pid fun p => { p with returnCode := returnCode }
  let countChildrenRunning := s.runningChildren pid
  let proc ← s.processes pid
  some (s.sweep
    (fun _ t => t.pid == proc.parentPid && t.state == .blockedPid &&
      (t.sleepFlagAddr == 2 ^ 64 - 1 && countChildrenRunning == 0 ||
        t.sleepFlagAddr == proc.lockAddr))
    (fun t => { t with state := .ready, sleepFlagAddr := 0 }) fun _ => rfl)

/-! ## Delivery of signals -/

/-- `register_a_thread`: the thread in the first free slot from 2 on. The word behind the table,
where the search would end, is `threads_info_lock`. -/
def registerAThread (s : System κ) (pid : ℕ) : Option (ℕ × System κ) := do
  let tid ← (List.range' 2 (maxThreadsCount - 2)).find? fun i => (s.threads i).isNone
  some (tid, s.insert (newThread pid tid))

/-- The handler of a signal is put into the table and the process is marked: what
`handle_signal_process` and `handle_signal_thread` have in common. -/
def registerHandler (s : System κ) (pid : ℕ) : Option (ℕ × System κ) := do
  let (handlerTid, s) ← registerAThread s pid
  let s := s.modify handlerTid (fun t => { t with state := .ready }) Thread.ready_tid
  some (handlerTid, s.modifyProcess pid fun p => { p with state := .handlingSignal })

def handleSignalProcess (s : System κ) (pid : ℕ) : Option (ℕ × System κ) := do
  let proc ← s.processes pid
  if proc.state = .handlingSignal then some (0, s)
  else if proc.signal = sigKill then (endProcess s pid 255).map fun s => (0, s)
  else if proc.signal = sigStop then (stopProcess s pid).map fun s => (0, s)
  else do
    let (handlerTid, s) ← registerHandler s pid
    some (handlerTid, s.sweep (fun i t => t.pid == pid && handlerTid != i)
      (fun t => { t with state := .waitingSignal }) fun _ => rfl)

/-- `handle_signal_thread`. The loop follows every pointer of the table, and the handler itself
waits too. -/
def handleSignalThread (s : System κ) (tid : ℕ) : Option (ℕ × System κ) := do
  let thread ← s.threads tid
  if thread.signal = 0 then some (0, s)
  else do
    let _ ← s.processes thread.pid
    let (handlerTid, s) ← registerHandler s thread.pid
    if s.full then
      some (handlerTid, s.sweep (fun _ t => t.pid == thread.pid)
        (fun t => { t with state := .waitingSignal }) fun _ => rfl)
    else none

def isSignalMasked (signalNum signalMask : ℕ) : Bool :=
  signalMask &&& 1 <<< signalNum != 0

/-- The loop of `send_signal_to_process`: the first thread of the process that does not mask the
signal. A null pointer on the way is followed. -/
def handlingThread (s : System κ) (pid sig : ℕ) : List ℕ → Option (Option ℕ)
  | [] => some none
  | i :: rest => do
    let tmpThread ← s.threads i
    if tmpThread.pid ≠ pid then handlingThread s pid sig rest
    else if isSignalMasked sig tmpThread.signalMask then handlingThread s pid sig rest
    else some (some i)

/-- `send_signal_to_process`, for a signal up to `MAX_SIGNAL`. -/
def sendSignalToProcess (s : System κ) (pid sig : ℕ) : Option (System κ) := do
  match ← handlingThread s pid sig (List.range maxThreadsCount) with
  | none => endProcess s pid sigKill
  | some i => do
    let s := s.modify i (fun t => { t with signal := sig }) fun _ => rfl
    let _ ← s.processes pid
    let (_, s) ← handleSignalProcess (s.modifyProcess pid fun p => { p with signal := sig }) pid
    some s

/-- The loop of `sys_kill` that blocks the ready threads of a process. -/
def blockReady (s : System κ) (pid : ℕ) : System κ :=
  s.sweep (fun _ t => t.pid == pid && t.state == .ready)
    (fun t => { t with state := .blockedOther }) fun _ => rfl

/-- The part of `sys_kill` after the signal has been sent. After `SIGKILL` it is the calling
process that is marked as ended. -/
def killSent (s : System κ) (c : κ) (pid sig : ℕ) : Option (ℕ × System κ) :=
  if sig = sigKill then (markProcessAsEnded s c).map fun s => (0, s)
  else if sig = sigStop then
    if s.full then some (0, blockReady s pid) else none
  else do
    let s := blockReady s pid
    let proc ← s.processes pid
    if proc.state = .handlingSignal then some (errno eAgain, s)
    else do
      let (_, s) ← handleSignalProcess s pid
      some (0, s)

def sysKill (s : System κ) (c : κ) (pid sig : ℕ) : Option (ℕ × System κ) :=
  if sig > 63 then some (errno eInval, s)
  else
    match s.processes pid with
    | none => some (errno eSrch, s)
    | some target =>
      if target.state = .notExist then some (errno eSrch, s)
      else do
        let s ← sendSignalToProcess s pid sig
        killSent s c pid sig

def sysRtSigreturn (s : System κ) (c : κ) : Option (ℕ × System κ) := do
  let tid := s.current c
  let curr ← s.threads tid
  let pid := curr.pid
  let s ← markCurrentThreadAsEnded s c tid
  let s := s.sweep (fun _ t => t.pid == pid && t.state == .waitingSignal)
    (fun t => { t with state := .ready }) Thread.ready_tid
  let s := s.modifyProcess pid fun p => { p with state := .running }
  some (0, s.modify tid (fun t => { t with signal := 0 }) fun _ => rfl)

end CarrotOS.Sched
