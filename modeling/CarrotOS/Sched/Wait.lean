import CarrotOS.Sched.Kill

/-!
# Waiting for a child (`sys_waitpid` of `core/syscall/syscall2.h`)

`sys_waitpid` blocks the thread on the address of the lock of the child, without a look at the state
of the child. Only `end_process` wakes such threads. A process that ends by itself is marked by
`mark_process_as_ended`, which wakes nobody, and `end_process` gives the children of a process to
process 1 without a look at who waits for them.

A thread that waits for a child that has ended waits for ever, so the law is that there is none.
Each call keeps the law under a condition of its own, and only under it.
-/

namespace CarrotOS.Sched

open Word Table Transition Option

variable {n q r returnCode : ℕ}

variable {κ : Type} {s s' s1 : System κ} {c : κ} {i pid k parent : ℕ}
  {p x x' : Process} {t : Thread}

/-! ## The call -/

/-- The address of the field `lock` behind a pointer of the process table. The pointer is not
followed, and it may be null. -/
def System.lockAddr (s : System κ) (pid : ℕ) : ℕ :=
  (s.processes pid).elim 664 Process.lockAddr

/-- What the thread waits for: any child if the argument is -1. -/
def System.waitFlag (s : System κ) (pid : ℕ) : ℕ :=
  if pid ≠ 2 ^ 64 - 1 then s.lockAddr pid else 2 ^ 64 - 1

/-- `sys_waitpid` up to the call of `scheduler_yeild`. -/
def sysWaitpid (s : System κ) (c : κ) (pid : ℕ) : Option (System κ) := do
  let tid := s.current c
  let _ ← s.threads tid
  some (s.modify tid (fun t => { t with state := .blockedPid, sleepFlagAddr := s.waitFlag pid })
    fun _ => rfl)

/-! ## The law -/

/-- The thread belongs to the process `parent` and is blocked on the lock of the process `x`. -/
def Thread.Awaits (t : Thread) (parent : ℕ) (x : Process) : Prop :=
  t.pid = parent ∧ t.state = .blockedPid ∧ t.sleepFlagAddr = x.lockAddr

/-- A thread of the process `parent` is blocked on the lock of the process `x`. -/
def System.Awaited (s : System κ) (parent : ℕ) (x : Process) : Prop :=
  ∃ i < maxThreadsCount, Holds s.threads i fun t => t.Awaits parent x

/-- The same of a thread that is not woken when the process `p` with the number `pid` ends. -/
def System.StillAwaited (s : System κ) (pid : ℕ) (p : Process) (parent : ℕ) (x : Process) : Prop :=
  ∃ i < maxThreadsCount, Holds s.threads i fun t => t.Awaits parent x ∧ ¬ s.Wakes pid p t

/-- No process waits for a child that has ended. -/
def System.NoStaleWait (s : System κ) : Prop :=
  ∀ q < maxProcessesCount, ∀ x, s.processes q = some x → x.Finished → ¬ s.Awaited x.parentPid x

/-- Nobody but the process itself waits for the process `k`. -/
def System.Unawaited (s : System κ) (k : ℕ) : Prop :=
  k < maxProcessesCount → ∀ x, s.processes k = some x → x.parentPid ≠ k → ¬ s.Awaited x.parentPid x

theorem Thread.Awaits.congr {t' : Thread} (haddr : x'.addr = x.addr) (hpid : t'.pid = t.pid)
    (hstate : t'.state = t.state) (hflag : t'.sleepFlagAddr = t.sleepFlagAddr) :
    t'.Awaits parent x' ↔ t.Awaits parent x := by
  rw [Thread.Awaits, Thread.Awaits, Process.lockAddr, Process.lockAddr, haddr, hpid, hstate, hflag]

/-! ## A process is marked -/

section Marked

variable (hmark : Marked s k s')
include hmark

theorem awaited_marked (haddr : x'.addr = x.addr) :
    s'.Awaited parent x' ↔ parent ≠ k ∧ s.Awaited parent x := by
  constructor
  · rintro ⟨i, hi, t', ht', hawaits⟩
    cases ht : s.threads i with
    | none => exact absurd (ht'.symm.trans (hmark.threadNull i ht)) (by simp)
    | some t =>
      obtain ⟨u, hu, hpid, hflag, hstate⟩ := hmark.thread i t ht
      cases ht'.symm.trans hu
      -- a thread that has just been marked is not blocked
      have hunmarked : ¬ (i < maxThreadsCount ∧ t.pid = k ∧ t.state ≠ .notExist) := fun hm => by
        rw [if_pos hm, hawaits.2.1] at hstate
        cases hstate
      rw [if_neg hunmarked] at hstate
      have hbefore := (Thread.Awaits.congr haddr hpid hstate hflag).mp hawaits
      refine ⟨fun hparent => hunmarked ⟨hi, hbefore.1.trans hparent, ?_⟩, i, hi, t, ht, hbefore⟩
      rw [hbefore.2.1]
      decide
  · rintro ⟨hne, i, hi, t, ht, hawaits⟩
    obtain ⟨t', ht', hpid, hflag, hstate⟩ := hmark.thread i t ht
    rw [if_neg fun hm => hne (hawaits.1.symm.trans hm.2.1)] at hstate
    exact ⟨i, hi, t', ht', (Thread.Awaits.congr haddr hpid hstate hflag).mpr hawaits⟩

/-- **A process is marked as ended.** The law is kept exactly if nobody waits for the process. -/
theorem noStaleWait_marked (h : s.NoStaleWait) : s'.NoStaleWait ↔ s.Unawaited k := by
  constructor
  · intro h' hk x hx hparent hawaited
    obtain ⟨x', hx', haddr, hparent', hstate⟩ := hmark.process k x hx
    rw [if_pos rfl] at hstate
    refine h' k hk x' hx' (.inr hstate) ?_
    rw [hparent']
    exact (awaited_marked hmark haddr).mpr ⟨hparent, hawaited⟩
  · intro hun q hq x' hx' hfinished hawaited
    cases hx : s.processes q with
    | none => exact absurd (hx'.symm.trans (hmark.processNull q hx)) (by simp)
    | some x =>
      obtain ⟨y, hy, haddr, hparent, hstate⟩ := hmark.process q x hx
      cases hx'.symm.trans hy
      obtain ⟨hne, hbefore⟩ := (awaited_marked hmark haddr).mp hawaited
      rw [hparent] at hne hbefore
      by_cases hqk : q = k
      · subst hqk
        exact hun hq x hx hne hbefore
      · -- the other processes have the state that they had
        rw [if_neg hqk] at hstate
        rw [Process.Finished, hstate] at hfinished
        exact h q hq x hx hfinished hbefore

end Marked

/-! ## A process is killed -/

/-- The condition for SIGKILL from the process `k` to the process `p`: the caller is marked, so
nobody may wait for it, and process 1 may not await the children that the target leaves behind. -/
structure KillHarmless (s : System κ) (k pid : ℕ) (p : Process) : Prop where
  handled : ¬ s.Ends pid p → s.Unawaited k
  caller : s.Ends pid p → k ≠ pid → k < maxProcessesCount → ∀ x, s.processes k = some x →
    x.adopted pid k ≠ k → ¬ s.StillAwaited pid p (x.adopted pid k) x
  orphans : s.Ends pid p → k ≠ 1 → ∀ q < maxProcessesCount, q ≠ pid → ∀ x, s.processes q = some x →
    x.parentPid = pid → x.Finished → ¬ s.StillAwaited pid p 1 x

section Killed

variable (hsent : Sent s pid p s1) (hmark : Marked s1 k s')
include hsent hmark

theorem awaited_killed (haddr : x'.addr = x.addr) :
    s'.Awaited parent x' ↔ parent ≠ k ∧ ∃ i < maxThreadsCount, Holds s.threads i fun t =>
      t.Awaits parent x ∧ ¬ (s.Ends pid p ∧ s.Wakes pid p t) := by
  constructor
  · rintro ⟨i, hi, t', ht', hawaits⟩
    obtain ⟨t, ht, -⟩ := killed_thread_back hsent hmark hi ht'
    obtain ⟨u, hu, hpid, hmarked, helse⟩ := killed_thread hsent hmark hi ht
    cases ht'.symm.trans hu
    -- neither a thread that has been marked nor one that has been woken is blocked
    have hunmarked : ¬ (t.pid = k ∧ t.state ≠ .notExist) := fun hm =>
      absurd ((hmarked hm).symm.trans hawaits.2.1) (by decide)
    have hunwoken : ¬ (s.Ends pid p ∧ s.Wakes pid p t) := fun hw =>
      absurd (((helse hunmarked).1 hw).symm.trans hawaits.2.1) (by decide)
    obtain ⟨hstate, hflag⟩ := (helse hunmarked).2 hunwoken
    have hbefore := (Thread.Awaits.congr haddr hpid hstate hflag).mp hawaits
    refine ⟨fun hparent => hunmarked ⟨hbefore.1.trans hparent, ?_⟩, i, hi, t, ht, hbefore, hunwoken⟩
    rw [hbefore.2.1]
    decide
  · rintro ⟨hne, i, hi, t, ht, hawaits, hunwoken⟩
    obtain ⟨t', ht', hpid, -, helse⟩ := killed_thread hsent hmark hi ht
    obtain ⟨hstate, hflag⟩ := (helse fun hm => hne (hawaits.1.symm.trans hm.1)).2 hunwoken
    exact ⟨i, hi, t', ht', (Thread.Awaits.congr haddr hpid hstate hflag).mpr hawaits⟩

theorem awaited_killed_of_ends (haddr : x'.addr = x.addr) (hends : s.Ends pid p) :
    s'.Awaited parent x' ↔ parent ≠ k ∧ s.StillAwaited pid p parent x := by
  rw [awaited_killed hsent hmark haddr, System.StillAwaited]
  simp only [hends, true_and]

theorem killed_process_back (hx' : s'.processes q = some x') :
    ∃ x, s.processes q = some x := by
  cases hx : s.processes q with
  | none =>
    have hnull := hmark.processNull q (hsent.processNull q hx)
    cases hx'.symm.trans hnull
  | some x => exact ⟨x, rfl⟩

theorem marked_of_handled (hends : ¬ s.Ends pid p) : Marked s k s' := by
  refine ⟨hmark.current.trans hsent.current, fun i hi => hmark.threadNull i (hsent.threadNull i hi),
    fun i t ht => ?_, fun q hq => hmark.processNull q (hsent.processNull q hq), fun q x hx => ?_⟩
  · obtain ⟨t1, ht1, hpid1, hstate1, hflag1⟩ := hsent.keeps i t ht fun _ h => absurd h hends
    obtain ⟨t', ht', hpid, hflag, hstate⟩ := hmark.thread i t1 ht1
    rw [hpid1, hstate1] at hstate
    exact ⟨t', ht', hpid.trans hpid1, hflag.trans hflag1, hstate⟩
  · obtain ⟨x1, hx1, haddr1, -, hparent1, -, hstate1⟩ := hsent.process q x hx
    obtain ⟨x', hx', haddr, hparent, hstate⟩ := hmark.process q x1 hx1
    rw [hstate1 fun h => hends h.1] at hstate
    exact ⟨x', hx', haddr.trans haddr1, hparent.trans (hparent1 hends), hstate⟩

/-- **After a kill** the law holds exactly under the condition. -/
theorem noStaleWait_killed (hp : s.processes pid = some p) (h : s.NoStaleWait) :
    s'.NoStaleWait ↔ KillHarmless s k pid p := by
  by_cases hends : s.Ends pid p
  · constructor
    · intro h'
      refine ⟨fun hn => absurd hends hn, fun _ _ hk x hx hne hawaited => ?_,
        fun _ hk q hq hqp x hx hparent hfinished hawaited => ?_⟩
      · obtain ⟨x', hx', haddr, hadopted, -, hmarked, -⟩ := killed_process hsent hmark hx
        refine h' k hk x' hx' (.inr (hmarked rfl)) ?_
        rw [hadopted hends]
        exact (awaited_killed_of_ends hsent hmark haddr hends).mpr ⟨hne, hawaited⟩
      · obtain ⟨x', hx', haddr, hadopted, -, hmarked, helse⟩ := killed_process hsent hmark hx
        have hone : x.adopted pid q = 1 := if_pos ⟨hq, hparent⟩
        refine h' q hq x' hx' ?_ ?_
        · by_cases hqk : q = k
          · exact .inr (hmarked hqk)
          · rw [Process.Finished, (helse hqk).2 fun hend => hqp hend.2]
            exact hfinished
        · rw [hadopted hends, hone]
          exact (awaited_killed_of_ends hsent hmark haddr hends).mpr ⟨Ne.symm hk, hawaited⟩
    · intro hharmless q hq x' hx' hfinished hawaited
      obtain ⟨x, hx⟩ := killed_process_back hsent hmark hx'
      obtain ⟨y, hy, haddr, hadopted, -, -, helse⟩ := killed_process hsent hmark hx
      cases hx'.symm.trans hy
      obtain ⟨hne, hstill⟩ := (awaited_killed_of_ends hsent hmark haddr hends).mp hawaited
      rw [hadopted hends] at hne hstill
      by_cases hqp : q = pid
      · -- whoever waits for the target is woken
        subst hqp
        cases hx.symm.trans hp
        obtain ⟨i, -, t, -, ⟨hpid, hstate, hflag⟩, hunwoken⟩ := hstill
        exact hunwoken ⟨hpid, hstate, .inr hflag⟩
      · by_cases hqk : q = k
        · subst hqk
          exact hharmless.caller hends hqp hq x hx hne hstill
        · have hstate := (helse hqk).2 fun hend => hqp hend.2
          rw [Process.Finished, hstate] at hfinished
          -- a child of the target has a new parent, the others keep theirs
          by_cases hchild : x.parentPid = pid
          · have hone : x.adopted pid q = 1 := if_pos ⟨hq, hchild⟩
            rw [hone] at hne hstill
            exact hharmless.orphans hends (Ne.symm hne) q hq hqp x hx hchild hfinished hstill
          · have hsame : x.adopted pid q = x.parentPid := if_neg fun hm => hchild hm.2
            rw [hsame] at hstill
            obtain ⟨i, hi, t, ht, hawaits, -⟩ := hstill
            exact h q hq x hx hfinished ⟨i, hi, t, ht, hawaits⟩
  · rw [noStaleWait_marked (marked_of_handled hsent hmark hends) h]
    constructor
    · intro hun
      exact ⟨fun _ => hun, fun h => absurd h hends, fun h => absurd h hends⟩
    · intro hharmless
      exact hharmless.handled hends

end Killed

/-! ## A thread exits -/

/-- The tables after a thread has marked itself and has left the count of its process. -/
theorem noStaleWait_left (h : s.NoStaleWait)
    (hs1 : s1 = (s.modify (s.current c) (fun t =>
      { t with state := .endedButNotCleaned, returnCode := returnCode }) fun _ => rfl).modifyProcess
        k fun p => { p with threadsCount := n }) :
    s1.NoStaleWait ∧ ((Holds s.threads (s.current c) fun t => t.pid = k) →
      (s1.Unawaited k ↔ s.Unawaited k)) := by
  have hthreads : s1.threads = Table.modify s.threads (s.current c) fun t =>
      { t with state := .endedButNotCleaned, returnCode := returnCode } := by
    rw [hs1]
    rfl
  have hprocesses : s1.processes = Table.modify s.processes k fun p =>
    { p with threadsCount := n } := by
    rw [hs1]
    rfl
  -- the thread itself is not blocked any more, and nothing else has changed
  have hback : ∀ parent y, s1.Awaited parent y → s.Awaited parent y := by
    rintro parent y ⟨i, hi, t', ht', hawaits⟩
    rw [hthreads] at ht'
    obtain ⟨t, ht, rfl⟩ := modify_eq_some.mp ht'
    split_ifs at hawaits with hcur
    · cases hawaits.2.1
    · exact ⟨i, hi, t, ht, hawaits⟩
  have hforth : (Holds s.threads (s.current c) fun t => t.pid = k) → ∀ parent y, parent ≠ k →
      s.Awaited parent y → s1.Awaited parent y := by
    rintro ⟨u, hu, hupid⟩ parent y hne ⟨i, hi, t, ht, hawaits⟩
    have hcur : i ≠ s.current c := by
      rintro rfl
      cases ht.symm.trans hu
      exact hne (hawaits.1.symm.trans hupid)
    refine ⟨i, hi, t, ?_, hawaits⟩
    rw [hthreads, modify_of_ne hcur, ht]
  refine ⟨fun q hq y hy hfinished hawaited => ?_, fun hcurr => ⟨?_, ?_⟩⟩
  · rw [hprocesses] at hy
    obtain ⟨x, hx, rfl⟩ := modify_eq_some.mp hy
    split_ifs at hfinished hawaited
    · exact h q hq x hx hfinished (hback _ _ hawaited)
    · exact h q hq x hx hfinished (hback _ _ hawaited)
  · intro hun hk x hx hne hawaited
    have hx1 : s1.processes k = some { x with threadsCount := n } := by
      rw [hprocesses, modify_self, hx, map_some]
    exact hun hk _ hx1 hne (hforth hcurr _ _ hne hawaited)
  · intro hun hk y hy hne hawaited
    rw [hprocesses, modify_self] at hy
    obtain ⟨x, hx, rfl⟩ := map_eq_some_iff.mp hy
    exact hun hk x hx hne (hback _ _ hawaited)

/-- **A thread exits.** Only the last thread of a process can break the law. -/
theorem noStaleWait_exit (ht : s.threads (s.current c) = some t) (hp : s.processes t.pid = some p)
    (hexit : markCurrentThreadAsEnded s c returnCode = some s') (h : s.NoStaleWait) :
    s'.NoStaleWait ↔ (u64 (p.threadsCount + 2 ^ 64 - 1) = 0 → s.Unawaited t.pid) := by
  rw [markCurrentThreadAsEnded_eq ht hp] at hexit
  generalize hs1 : (s.modify (s.current c) (fun t =>
    { t with state := .endedButNotCleaned, returnCode := returnCode }) _).modifyProcess t.pid
      (fun p' => { p' with threadsCount := u64 (p.threadsCount + 2 ^ 64 - 1) }) = s1 at hexit
  obtain ⟨hleft, hun⟩ := noStaleWait_left h hs1.symm
  split_ifs at hexit with hlast
  · have ht1 : s1.threads (s1.current c) = some { t with
        state := .endedButNotCleaned, returnCode := returnCode } := by
      rw [← hs1]
      exact modify_eq_some.mpr ⟨t, ht, (if_pos rfl).symm⟩
    rw [noStaleWait_marked (markProcessAsEnded_spec ht1 hexit) hleft, hun ⟨t, ht, rfl⟩]
    exact ⟨fun hu _ => hu, fun hu => hu (Nat.le_zero.mp hlast)⟩
  · cases hexit
    exact iff_of_true hleft fun hzero => absurd (Nat.le_zero.mpr hzero) hlast

/-! ## A thread waits -/

/-- **A thread waits for a child.** The child must not have ended. -/
theorem noStaleWait_waitpid (ht : s.threads (s.current c) = some t)
    (hwait : sysWaitpid s c pid = some s') (h : s.NoStaleWait) :
    s'.NoStaleWait ↔ (s.current c < maxThreadsCount → ∀ q < maxProcessesCount, ∀ x,
      s.processes q = some x → x.Finished → x.parentPid = t.pid → x.lockAddr ≠ s.waitFlag pid) := by
  obtain ⟨u, hu, hwait⟩ := bind_eq_some_iff.mp hwait
  cases ht.symm.trans hu
  cases hwait
  constructor
  · intro h' hcur q hq x hx hfinished hparent hlock
    refine h' q hq x hx hfinished ⟨s.current c, hcur, _, modify_eq_some.mpr ⟨t, ht, rfl⟩, ?_⟩
    rw [if_pos rfl]
    exact ⟨hparent.symm, rfl, hlock.symm⟩
  · rintro hfresh q hq x hx hfinished ⟨i, hi, t', ht', hawaits⟩
    obtain ⟨u, hu, rfl⟩ := modify_eq_some.mp ht'
    split_ifs at hawaits with hcur
    · subst hcur
      cases ht.symm.trans hu
      exact hfresh hi q hq x hx hfinished hawaits.1.symm hawaits.2.2.symm
    · exact h q hq x hx hfinished ⟨i, hi, u, hu, hawaits⟩

/-! ## Ticks -/

/-- No thread is put into the table, and the processes stay as they are. -/
structure Quiet (s s' : System κ) : Prop where
  processes : s'.processes = s.processes
  null : ∀ i, s.threads i = none → s'.threads i = none

namespace Quiet

theorem refl (s : System κ) : Quiet s s :=
  ⟨rfl, fun _ => id⟩

theorem trans (h : Quiet s s1) (h' : Quiet s1 s') : Quiet s s' :=
  ⟨h'.processes.trans h.processes, fun i hi => h'.null i (h.null i hi)⟩

theorem modify (s : System κ) (i : ℕ) (g : Thread → Thread) (hg : ∀ t, (g t).tid = t.tid) :
    Quiet s (s.modify i g hg) := by
  refine ⟨rfl, fun a ha => eq_none_iff_forall_ne_some.mpr fun t ht => ?_⟩
  obtain ⟨u, hu, -⟩ := modify_eq_some.mp ht
  cases ha.symm.trans hu

theorem sweep (s : System κ) (test : ℕ → Thread → Bool) (g : Thread → Thread)
    (hg : ∀ t, (g t).tid = t.tid) : Quiet s (s.sweep test g hg) := by
  refine ⟨rfl, fun a ha => eq_none_iff_forall_ne_some.mpr fun t ht => ?_⟩
  obtain ⟨u, hu, -⟩ := sweep_eq_some.mp ht
  cases ha.symm.trans hu

theorem endCurrent {cur : ℕ} (h : endCurrent s cur = some s') : Quiet s s' := by
  unfold Sched.endCurrent at h
  split_ifs at h
  · obtain ⟨t, -, h⟩ := bind_eq_some_iff.mp h
    cases h
    exact modify s cur _ _
  · cases h
    exact refl s

theorem preempt (s : System κ) (cur : ℕ) : Quiet s (preempt s cur) := by
  unfold Sched.preempt
  split_ifs
  · exact modify s cur _ _
  · exact refl s

variable [DecidableEq κ]

omit [DecidableEq κ] in
theorem of_eq (hthreads : s'.threads = s.threads) (hprocesses : s'.processes = s.processes) :
    Quiet s s' :=
  ⟨hprocesses, fun i hi => (congrFun hthreads i).trans hi⟩

theorem setCurrent (s : System κ) (c : κ) (tid : ℕ) : Quiet s (s.setCurrent c tid) :=
  of_eq rfl rfl

theorem runThread (h : runThread s c n = some (r, s')) : Quiet s s' := by
  obtain ⟨t, -, h⟩ := bind_eq_some_iff.mp h
  cases h
  exact (modify s n _ _).trans (setCurrent _ c _)

variable {clock : ℕ → Timeval}

theorem tick (h : (Step.tick c clock).apply s = some s') : Quiet s s' := by
  obtain ⟨⟨r, s2⟩, htick, rfl⟩ := map_eq_some_iff.mp h
  have hsleep : Quiet s (handleSleppingThread clock s) := sweep s _ _ _
  unfold tickInterruptHandler at htick
  split_ifs at htick
  · unfold timerTickFromIdle at htick
    dsimp only at htick
    split_ifs at htick
    · exact hsleep.trans (runThread htick)
    · cases htick
      exact hsleep.trans (setCurrent _ c 0)
  · obtain ⟨t, -, htick⟩ := bind_eq_some_iff.mp htick
    obtain ⟨s3, hend, htick⟩ := bind_eq_some_iff.mp htick
    have hended := hsleep.trans (endCurrent hend)
    split_ifs at htick
    · exact hended.trans ((preempt _ _).trans (runThread htick))
    · cases htick
      exact hended
    · cases htick
      exact hended.trans (setCurrent _ c 0)

theorem yield (h : (Step.yield c clock).apply s = some s') : Quiet s s' := by
  obtain ⟨⟨r, s2⟩, htick, rfl⟩ := map_eq_some_iff.mp h
  have hsleep : Quiet s (handleSleppingThread clock s) := sweep s _ _ _
  obtain ⟨t, -, htick⟩ := bind_eq_some_iff.mp htick
  obtain ⟨s3, hend, htick⟩ := bind_eq_some_iff.mp htick
  have hended := hsleep.trans (endCurrent hend)
  split_ifs at htick
  · exact hended.trans ((preempt _ _).trans (runThread htick))
  · cases htick
    exact hended.trans (setCurrent _ c 0)

end Quiet

/-- **A tick** blocks no thread. -/
theorem noStaleWait_ticked [DecidableEq κ] {clock : ℕ → Timeval} (htick : Ticked clock s c s')
    (hquiet : Quiet s s') (h : s.NoStaleWait) : s'.NoStaleWait := by
  rintro q hq x hx hfinished ⟨i, hi, t', ht', hawaits⟩
  rw [hquiet.processes] at hx
  cases ht : s.threads i with
  | none => exact absurd (ht'.symm.trans (hquiet.null i ht)) (by simp)
  | some t =>
    -- every change of a tick gives the thread another state
    have hkeeps : TickKeeps clock (s.current c) i fun u => u.Awaits x.parentPid x →
        t.Awaits x.parentPid x := by
      refine ⟨fun _ _ _ _ hu => ?_, fun _ _ _ hu => ?_, fun _ _ _ _ hu => ?_,
        fun _ _ _ _ _ hu => ?_⟩
      all_goals exact absurd hu.2.1 (by simp)
    obtain ⟨u, hu, hback⟩ := htick.holds i _ hkeeps ⟨t, ht, id⟩
    cases ht'.symm.trans hu
    exact h q hq x hx hfinished ⟨i, hi, t, ht, hback hawaits⟩

/-! ## Runs -/

/-- The calls, and the ticks between them. -/
inductive WaitStep (κ : Type)
  | sysWaitpid (c : κ) (pid : ℕ)
  | sysExit (c : κ) (status : ℕ)
  | sysExitGroup (c : κ)
  | sysKill (c : κ) (pid : ℕ)
  | tick (c : κ) (clock : ℕ → Timeval)
  | yield (c : κ) (clock : ℕ → Timeval)

namespace WaitStep

/-- What a step does. The signal of `sys_kill` is SIGKILL. -/
def apply [DecidableEq κ] (s : System κ) : WaitStep κ → Option (System κ)
  | sysWaitpid c pid => Sched.sysWaitpid s c pid
  | sysExit c status => markCurrentThreadAsEnded s c status
  | sysExitGroup c => markProcessAsEnded s c
  | sysKill c pid => (Sched.sysKill s c pid sigKill).map Prod.snd
  | tick c clock => (Step.tick c clock).apply s
  | yield c clock => (Step.yield c clock).apply s

def Harmless (s : System κ) : WaitStep κ → Prop
  | sysWaitpid c pid => ∀ t, s.threads (s.current c) = some t → s.current c < maxThreadsCount →
    ∀ q < maxProcessesCount, ∀ x, s.processes q = some x → x.Finished → x.parentPid = t.pid →
      x.lockAddr ≠ s.waitFlag pid
  | sysExit c _ => ∀ t p, s.threads (s.current c) = some t → s.processes t.pid = some p →
    u64 (p.threadsCount + 2 ^ 64 - 1) = 0 → s.Unawaited t.pid
  | sysExitGroup c => ∀ t, s.threads (s.current c) = some t → s.Unawaited t.pid
  | sysKill c pid => ∀ t p, s.threads (s.current c) = some t → s.processes pid = some p →
    p.state ≠ .notExist → KillHarmless s t.pid pid p
  | tick _ _ | yield _ _ => True

end WaitStep

/-- A kill of a process that does not exist does nothing. -/
theorem noStaleWait_sysKill (hkill : sysKill s c pid sigKill = some (r, s')) (h : s.NoStaleWait) :
    s'.NoStaleWait ↔ ∀ t p, s.threads (s.current c) = some t →
      s.processes pid = some p → p.state ≠ .notExist → KillHarmless s t.pid pid p := by
  by_cases hexists : Holds s.processes pid fun p => p.state ≠ .notExist
  · obtain ⟨p, hp, hlive⟩ := hexists
    obtain ⟨-, t, ht, -⟩ := (sysKill_isSome_iff hp hlive).mp ⟨r, s', hkill⟩
    obtain ⟨s1, hsent, hmark⟩ := sysKill_spec hp hlive ht hkill
    rw [noStaleWait_killed hsent hmark hp h]
    constructor
    · intro hharmless t' p' ht' hp' _
      cases ht.symm.trans ht'
      cases hp.symm.trans hp'
      exact hharmless
    · intro hharmless
      exact hharmless t p ht hp hlive
  · have hsame : s' = s := by
      unfold sysKill at hkill
      cases hp : s.processes pid with
      | none =>
        rw [hp] at hkill
        exact (Prod.mk.inj (some.inj hkill)).2.symm
      | some p =>
        have hdead : p.state = .notExist :=
          Decidable.byContradiction fun hne => hexists ⟨p, hp, hne⟩
        rw [hp] at hkill
        dsimp only at hkill
        rw [if_pos hdead] at hkill
        exact (Prod.mk.inj (some.inj hkill)).2.symm
    subst hsame
    refine iff_of_true h fun t p _ hp hlive => ?_
    exact absurd ⟨p, hp, hlive⟩ hexists

/-- **One step**: the law is kept exactly if the step is harmless. -/
theorem noStaleWait_apply [DecidableEq κ] {step : WaitStep κ} (hstep : step.apply s = some s')
    (h : s.NoStaleWait) : s'.NoStaleWait ↔ step.Harmless s := by
  cases step with
  | sysWaitpid c pid =>
    obtain ⟨t, ht, -⟩ := bind_eq_some_iff.mp hstep
    rw [noStaleWait_waitpid ht hstep h]
    constructor
    · intro hfresh t' ht'
      cases ht.symm.trans ht'
      exact hfresh
    · intro hharmless
      exact hharmless t ht
  | sysExit c status =>
    obtain ⟨t, ht, hrest⟩ := bind_eq_some_iff.mp hstep
    obtain ⟨p, hp, -⟩ := bind_eq_some_iff.mp hrest
    rw [noStaleWait_exit ht hp hstep h]
    constructor
    · intro hlast t' p' ht' hp'
      cases ht.symm.trans ht'
      cases hp.symm.trans hp'
      exact hlast
    · intro hharmless
      exact hharmless t p ht hp
  | sysExitGroup c =>
    obtain ⟨t, ht, -⟩ := bind_eq_some_iff.mp hstep
    rw [noStaleWait_marked (markProcessAsEnded_spec ht hstep) h]
    constructor
    · intro hun t' ht'
      cases ht.symm.trans ht'
      exact hun
    · intro hharmless
      exact hharmless t ht
  | sysKill c pid =>
    obtain ⟨⟨r, s1⟩, hkill, rfl⟩ := map_eq_some_iff.mp hstep
    exact noStaleWait_sysKill hkill h
  | tick c clock =>
    exact iff_of_true (noStaleWait_ticked (Step.ticked_of_tick hstep) (Quiet.tick hstep) h) trivial
  | yield c clock =>
    exact iff_of_true (noStaleWait_ticked (Step.ticked_of_yield hstep) (Quiet.yield hstep) h)
      trivial

/-- **Every run** of harmless steps: the next one leaves nobody waiting for a child that has ended
exactly if it is harmless too. -/
theorem noStaleWait_iff_harmless [DecidableEq κ] {s₀ : System κ} {steps : List (WaitStep κ)}
    {step : WaitStep κ} (h₀ : s₀.NoStaleWait)
    (hrun : Run WaitStep.apply (fun s step => step.Harmless s) s₀ steps s)
    (hstep : step.apply s = some s') : s'.NoStaleWait ↔ step.Harmless s := by
  have h : s.NoStaleWait := hrun.invariant System.NoStaleWait
    (fun _ _ _ h hok hs => (noStaleWait_apply hs h).mpr hok) h₀
  exact noStaleWait_apply hstep h

/-! ## A parent and its child -/

theorem not_finished_killTables (hx : killTables.processes q = some x) : ¬ x.Finished := by
  change (if q = 2 ∨ q = 3 then _ else none) = some x at hx
  split_ifs at hx
  rw [← some.inj hx]
  simp [Process.Finished]

theorem noStaleWait_killTables : killTables.NoStaleWait :=
  fun _ _ _ hx hfinished => absurd hfinished (not_finished_killTables hx)

/-- The parent waits for the child that is running, and gives up the core. -/
theorem noStaleWait_iff_harmless_yield : ∃ s s',
    Run WaitStep.apply (fun s step => step.Harmless s) killTables [.sysWaitpid () 3] s ∧
    (WaitStep.yield () fun _ => ⟨0, 0⟩).apply s = some s' ∧
    (Holds s'.threads 1 fun t => t.state = .blockedPid) ∧ s'.NoStaleWait := by
  have hharmless : (WaitStep.sysWaitpid () 3).Harmless killTables := by
    intro t _ _ q hq x hx hfinished
    exact absurd hfinished (not_finished_killTables hx)
  obtain ⟨s, hs, s', hs', hblocked⟩ : ∃ s ∈ (WaitStep.sysWaitpid () 3).apply killTables,
      ∃ s' ∈ (WaitStep.yield () fun _ => ⟨0, 0⟩).apply s,
        Holds s'.threads 1 fun t => t.state = .blockedPid := by
    decide
  have hrun : Run WaitStep.apply (fun s step => step.Harmless s) killTables [.sysWaitpid () 3] s :=
    .snoc (.nil _) hharmless hs
  exact ⟨s, s', hrun, hs', hblocked,
    (noStaleWait_iff_harmless noStaleWait_killTables hrun hs').mpr trivial⟩

/-- The child exits while its parent waits: the parent stays blocked. -/
theorem exitGroup_leaves_waiter : killTables.NoStaleWait ∧ ∃ s,
    Run WaitStep.apply (fun _ _ => True) killTables
      [.sysWaitpid () 3, .yield () fun _ => ⟨0, 0⟩, .sysExitGroup ()] s ∧ ¬ s.NoStaleWait := by
  refine ⟨noStaleWait_killTables, Run.exists_of_eval (Q := fun s =>
    (Holds s.threads 1 fun t => t.pid = 2 ∧ t.state = .blockedPid ∧ t.sleepFlagAddr = 12952) ∧
    Holds s.processes 3 fun x => x.addr = 12288 ∧ x.state = .endedButNotCleaned ∧ x.parentPid = 2)
    (by decide) ?_⟩
  rintro s - ⟨⟨t, ht, hpid, hblocked, hflag⟩, x, hx, haddr, hended, hparent⟩ hlaw
  refine hlaw 3 (by decide) x hx (.inr hended) ⟨1, by decide, t, ht, ?_, hblocked, ?_⟩
  · rw [hpid, hparent]
  · rw [hflag, Process.lockAddr, haddr]

end CarrotOS.Sched
