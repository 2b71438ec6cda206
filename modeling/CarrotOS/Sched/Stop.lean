import CarrotOS.Sched.Dead

/-!
# Threads that a signal stops

The handler of a signal runs while the other threads of its process wait, and `sys_rt_sigreturn`
makes all of them ready: what they were before is not recorded. `SIGSTOP` blocks the ready threads
of a process in the state in which threads sleep, with the wake-up time of their last sleep, so that
the next tick behind that time makes them ready.
-/

namespace CarrotOS.Sched

open Word Table Transition Function List Option

variable {κ : Type} {s s' s₁ : System κ} {c : κ} {pid i : ℕ} {t : Thread}

/-- The process has the thread in slot `i`. -/
def System.Owns (s : System κ) (pid i : ℕ) (t : Thread) : Prop :=
  i < maxThreadsCount ∧ s.threads i = some t ∧ t.pid = pid

/-! ## The handler of a signal -/

/-- The threads of the process are in the states they were in before, and those that ran are
ready. -/
def RestoresOthers (s : System κ) (pid : ℕ) (s' : System κ) : Prop :=
  ∀ i t, s.Owns pid i t → Holds s'.threads i fun t' =>
    t'.state = (if t.state = .running then .ready else t.state) ∧
      (t.state.blocked = true → t'.sleepFlagAddr = t.sleepFlagAddr)

section Return

variable {handler : Thread} {proc : Process} (hh : s.threads (s.current c) = some handler)
  (hproc : s.processes handler.pid = some proc)
include hh hproc

/-- A thread that exits leaves the others as they are, or ends them all if the count of threads
was 1. -/
theorem markCurrentThreadAsEnded_waiting (returnCode : ℕ) :
    ∃ s', markCurrentThreadAsEnded s c returnCode = some s' ∧
      ∀ i t, s.Owns handler.pid i t → i ≠ s.current c → t.state = .waitingSignal →
        s'.threads i = some (if proc.threadsCount % 2 ^ 64 = 1 then
          { t with state := .endedButNotCleaned } else t) := by
  have hlast : u64 (proc.threadsCount + 2 ^ 64 - 1) ≤ 0 ↔ proc.threadsCount % 2 ^ 64 = 1 := by
    unfold u64
    omega
  rw [markCurrentThreadAsEnded_eq hh hproc]
  simp only [hlast]
  split_ifs with hone
  · have hcurr : ∀ g, Table.modify s.threads (s.current c) g (s.current c) = some (g handler) := by
      intro g
      rw [modify_self, hh, map_some]
    have hproc' : ∀ g, Table.modify s.processes handler.pid g handler.pid = some (g proc) := by
      intro g
      rw [modify_self, hproc, map_some]
    refine ⟨_, bind_eq_some_iff.mpr ⟨_, hcurr _, bind_eq_some_iff.mpr ⟨_, hproc' _, rfl⟩⟩, ?_⟩
    rintro i t ⟨hi, ht, hpid⟩ hne hwaits
    rw [System.threads_sweep]
    exact sweep_eq_some.mpr ⟨t, (modify_of_ne hne).trans ht, by simp [hi, hpid, hwaits]⟩
  · exact ⟨_, rfl, fun i t ht hne _ => (modify_of_ne hne).trans ht.2.1⟩

/-- **Return**: the threads that wait for the handler are ready, or ended. -/
theorem sysRtSigreturn_waiting :
    ∃ s', sysRtSigreturn s c = some (0, s') ∧
      ∀ i t, s.Owns handler.pid i t → i ≠ s.current c → t.state = .waitingSignal →
        s'.threads i = some { t with
          state := if proc.threadsCount % 2 ^ 64 = 1 then .endedButNotCleaned else .ready } := by
  obtain ⟨s₁, hs1, hstates⟩ := markCurrentThreadAsEnded_waiting hh hproc (s.current c)
  refine ⟨_, bind_eq_some_iff.mpr ⟨handler, hh, bind_eq_some_iff.mpr ⟨s₁, hs1, rfl⟩⟩, ?_⟩
  intro i t ht hne hwaits
  have hswept : ∀ (s : System κ) g, (s.modifyProcess handler.pid g).threads = s.threads :=
    fun _ _ => rfl
  rw [System.threads_modify, modify_of_ne hne, hswept, System.threads_sweep]
  refine sweep_eq_some.mpr ⟨_, hstates i t ht hne hwaits, ?_⟩
  obtain ⟨hi, -, hpid⟩ := ht
  split_ifs <;> simp_all

end Return

section Handler

variable {h : ℕ} {proc : Process} (hproc : s.processes pid = some proc)
  (hhandling : proc.state ≠ .handlingSignal) (hkill : proc.signal ≠ sigKill)
  (hstop : proc.signal ≠ sigStop) (hrun : handleSignalProcess s pid = some (h, s₁))
include hproc hhandling hkill hstop hrun

/-- **Delivery**: the handler has a slot of its own, and the other threads wait. -/
theorem handleSignalProcess_spec :
    (Holds s₁.threads h fun t => t.pid = pid) ∧
    s₁.processes pid = some { proc with state := .handlingSignal } ∧
    ∀ i t, s.Owns pid i t →
      i ≠ h ∧ s₁.threads i = some { t with state := .waitingSignal } := by
  rw [handleSignalProcess, hproc, bind_eq_bind, bind_some, if_neg hhandling, if_neg hkill,
    if_neg hstop] at hrun
  obtain ⟨⟨tid, s2⟩, hreg, hrun⟩ := bind_eq_some_iff.mp hrun
  cases hrun
  have hkeeps := registerHandler_changes hreg
  obtain ⟨⟨tid', s3⟩, hnew, hreg⟩ := bind_eq_some_iff.mp hreg
  obtain ⟨tid'', hfind, hnew⟩ := bind_eq_some_iff.mp hnew
  cases hnew
  cases hreg
  have hfree : s.threads h = none := by simpa using find?_some hfind
  refine ⟨?_, modify_eq_some.mpr ⟨proc, hproc, by simp⟩, ?_⟩
  · have hnew : Holds (s.insert (newThread pid h)).threads h fun t => t.pid = pid :=
      ⟨_, update_self .., rfl⟩
    exact Holds.sweep (Holds.modify hnew fun _ _ _ => id) fun _ h _ => h
  · rintro i t ⟨hi, ht, hpid⟩
    have hne : i ≠ h := by
      rintro rfl
      cases hfree.symm.trans ht
    obtain ⟨t', ht', rfl⟩ := hkeeps.holds i (· = t) trivial ⟨t, ht, rfl⟩
    refine ⟨hne, ?_⟩
    rw [System.threads_sweep]
    exact sweep_eq_some.mpr ⟨_, ht', by simp [hi, hpid, hne.symm]⟩

/-- **The other threads of a process after the handler of a signal** are all ready: right for those
that were ready or running. With a count of 1 they have all ended, since the handler is not
counted. -/
theorem restoresOthers_iff [DecidableEq κ] :
    ∃ s₂ s', runThread s₁ c h = some (h, s₂) ∧ sysRtSigreturn s₂ c = some (0, s') ∧
      (RestoresOthers s pid s' ↔ ∀ i t, s.Owns pid i t →
        if proc.threadsCount % 2 ^ 64 = 1 then t.state = .endedButNotCleaned
        else t.state = .ready ∨ t.state = .running) := by
  obtain ⟨⟨handler, hh, rfl⟩, hproc₁, hothers⟩ :=
    handleSignalProcess_spec hproc hhandling hkill hstop hrun
  let s₂ := (s₁.modify h (fun t => { t with state := .running }) fun _ => rfl).setCurrent c h
  have hs₂ : runThread s₁ c h = some (h, s₂) := by
    rw [runThread, hh, bind_eq_bind, bind_some, s₁.tid_eq h handler hh]
  have hcur : s₂.current c = h := update_self ..
  have hh₂ : s₂.threads (s₂.current c) = some { handler with state := .running } := by
    rw [hcur]
    exact modify_eq_some.mpr ⟨handler, hh, by simp⟩
  obtain ⟨s', hs', hstates⟩ := sysRtSigreturn_waiting hh₂ hproc₁
  refine ⟨s₂, s', hs₂, hs', forall₂_congr fun i t => forall_congr' fun ht => ?_⟩
  obtain ⟨hne, hwaits⟩ := hothers i t ht
  have hafter := hstates i _ ⟨ht.1, (modify_of_ne hne).trans hwaits, ht.2.2⟩ (hcur ▸ hne) rfl
  simp only [Holds, hafter, some.injEq, exists_eq_left', implies_true, and_true]
  generalize t.state = state
  by_cases hone : proc.threadsCount % 2 ^ 64 = 1
  · simp only [hone, ↓reduceIte]
    cases state <;> decide
  · simp only [hone, ↓reduceIte]
    cases state <;> decide

end Handler

/-- A ready and a running thread are ready after the handler. -/
theorem restoresOthers_running : ∃ h s₁ s₂ s',
    handleSignalProcess (signalSystem .running) 2 = some (h, s₁) ∧
    runThread s₁ () h = some (h, s₂) ∧ sysRtSigreturn s₂ () = some (0, s') ∧
    RestoresOthers (signalSystem .running) 2 s' := by
  have hproc : (signalSystem .running).processes 2 = some (signalProcess 3) := rfl
  obtain ⟨⟨h, s₁⟩, hs₁⟩ := isSome_iff_exists.mp
    (show (handleSignalProcess (signalSystem .running) 2).isSome by decide)
  obtain ⟨s₂, s', hs₂, hs', hiff⟩ :=
    restoresOthers_iff (c := ()) hproc (by decide) (by decide) (by decide) hs₁
  refine ⟨h, s₁, s₂, s', hs₁, hs₂, hs', hiff.mpr fun i t ht => ?_⟩
  obtain ⟨-, hi, hpid⟩ := ht
  change signalThreads _ i = _ at hi
  unfold signalThreads at hi
  split_ifs at hi <;> cases hi <;> simp_all [signalProcess]

/-- **A thread that waits for a futex is ready after the handler.** -/
theorem not_restoresOthers_futex : ∃ h s₁ s₂ s',
    handleSignalProcess (signalSystem .blockedFutex) 2 = some (h, s₁) ∧
    runThread s₁ () h = some (h, s₂) ∧ sysRtSigreturn s₂ () = some (0, s') ∧
    ¬RestoresOthers (signalSystem .blockedFutex) 2 s' := by
  obtain ⟨⟨h, s₁⟩, hs₁, ⟨h', s₂⟩, hs₂, rfl, ⟨r, s'⟩, hs', rfl, t', ht', hready⟩ :
      ∃ x ∈ handleSignalProcess (signalSystem .blockedFutex) 2,
        ∃ y ∈ runThread x.2 () x.1, y.1 = x.1 ∧
        ∃ z ∈ sysRtSigreturn y.2 (), z.1 = 0 ∧ Holds z.2.threads 2 fun t => t.state = .ready := by
    decide
  refine ⟨h', s₁, s₂, s', hs₁, hs₂, hs', fun hsame => ?_⟩
  obtain ⟨t, ht, hstate, -⟩ := hsame 2 _ ⟨by decide, rfl, rfl⟩
  cases ht.symm.trans ht'
  rw [hready] at hstate
  revert hstate
  decide

/-! ## A stopped process -/

/-- The clock that a tick reads. -/
def Step.clock? : Step κ → Option (ℕ → Timeval)
  | tick _ clock | yield _ clock => some clock
  | _ => none

variable [DecidableEq κ]

abbrev TickRun : System κ → List (Step κ) → System κ → Prop :=
  Run Step.apply fun _ step => step.clock?.isSome

/-- After each of the ticks the thread is neither ready nor running. -/
def StaysStopped (s : System κ) (ticks : List (Step κ)) (i : ℕ) : Prop :=
  ∀ before after s', ticks = before ++ after → TickRun s before s' →
    Holds s'.threads i fun t => t.state ≠ .ready ∧ t.state ≠ .running

/-- Every tick reads a time before `w` for the thread. -/
def Early (ticks : List (Step κ)) (i : ℕ) (w : Timeval) : Prop :=
  ∀ step ∈ ticks, ∀ clock, step.clock? = some clock → laterOrSame (clock i) w = false

section Tick

variable {clock : ℕ → Timeval} {step : Step κ} {w : Timeval}

theorem ticked_of_apply (hstep : step.clock? = some clock) (h : step.apply s = some s') :
    ∃ c, Ticked clock s c s' := by
  cases step with
  | tick c clock' =>
    cases hstep
    exact ⟨c, Step.ticked_of_tick h⟩
  | yield c clock' =>
    cases hstep
    exact ⟨c, Step.ticked_of_yield h⟩
  | _ => cases hstep

omit [DecidableEq κ] in
theorem handleSleppingThread_idem :
    handleSleppingThread clock (handleSleppingThread clock s) = handleSleppingThread clock s := by
  have hthreads : (handleSleppingThread clock (handleSleppingThread clock s)).threads =
      (handleSleppingThread clock s).threads := by
    funext i
    simp only [handleSleppingThread, System.threads_sweep, Table.sweep]
    cases s.threads i with
    | none => rfl
    | some t =>
      simp only [map_some]
      split_ifs <;> simp_all
  unfold handleSleppingThread at hthreads ⊢
  simp only [System.sweep] at hthreads ⊢
  congr

theorem apply_handleSleppingThread (hstep : step.clock? = some clock) :
    step.apply (handleSleppingThread clock s) = step.apply s := by
  have hthread : ∀ (i : ℕ) (k : Option (ℕ × System κ)),
      ((handleSleppingThread clock s).threads i).bind (fun _ => k) =
        (s.threads i).bind fun _ => k := by
    intro i k
    rw [handleSleppingThread, System.threads_sweep, Table.sweep, bind_map]
    rfl
  cases step with
  | tick c clock' =>
    cases hstep
    simp only [Step.apply, tickInterruptHandler, timerTickFromIdle, timerTickFromNonIdle,
      handleSleppingThread_idem, bind_eq_bind, hthread]
    rfl
  | yield c clock' =>
    cases hstep
    simp only [Step.apply, timerTick1, handleSleppingThread_idem, bind_eq_bind, hthread]
    rfl
  | _ => cases hstep

variable (hstep : step.clock? = some clock) (h : step.apply s = some s')
  (hblocked : Holds s.threads i fun t => t.state = .blockedOther ∧ t.wakeupTime = w)
include hstep h hblocked

/-- **A late tick**: the thread is ready or running after it. -/
theorem woken_of_apply (hi : i < maxThreadsCount) (hlate : laterOrSame (clock i) w = true) :
    Holds s'.threads i fun t => t.state = .ready ∨ t.state = .running := by
  obtain ⟨t, ht, hstate, rfl⟩ := hblocked
  have hready : Holds (handleSleppingThread clock s).threads i fun t =>
      t.state = .ready ∨ t.state = .running := by
    rw [handleSleppingThread, System.threads_sweep]
    exact ⟨_, sweep_eq_some.mpr ⟨t, ht, rfl⟩, by simp [hi, hstate, hlate]⟩
  rw [← apply_handleSleppingThread hstep] at h
  obtain ⟨c, hticked⟩ := ticked_of_apply hstep h
  refine hticked.holds i _ ⟨by simp, by simp, by simp, ?_⟩ hready
  rintro - u - (hu | hu) hended <;> cases hu.symm.trans hended

/-- **An early tick** leaves the thread blocked. -/
theorem blocked_of_apply (hearly : laterOrSame (clock i) w = false) :
    Holds s'.threads i fun t => t.state = .blockedOther ∧ t.wakeupTime = w := by
  obtain ⟨c, hticked⟩ := ticked_of_apply hstep h
  refine hticked.holds i _ ⟨?_, ?_, ?_, ?_⟩ hblocked <;> simp_all

end Tick

section Run

variable {ticks : List (Step κ)} {w : Timeval} (hrun : TickRun s ticks s')
  (hblocked : Holds s.threads i fun t => t.state = .blockedOther ∧ t.wakeupTime = w)
include hrun hblocked

theorem blocked_of_early (hearly : Early ticks i w) :
    Holds s'.threads i fun t => t.state = .blockedOther ∧ t.wakeupTime = w := by
  induction hrun with
  | nil => exact hblocked
  | snoc _ hok hstep ih =>
    obtain ⟨clock, hclock⟩ := isSome_iff_exists.mp hok
    exact blocked_of_apply hclock hstep (ih fun step hmem => hearly step (mem_append_left _ hmem))
      (hearly _ (by simp) clock hclock)

theorem staysStopped_iff (hi : i < maxThreadsCount) :
    StaysStopped s ticks i ↔ Early ticks i w := by
  constructor
  · intro hstays
    induction hrun with
    | nil => exact fun step hmem => absurd hmem not_mem_nil
    | snoc hrun hok hstep ih =>
      have hearly := ih fun before after s' heq =>
        hstays before (after ++ _) s' (by rw [heq, append_assoc])
      intro step hmem clock hclock
      rcases mem_append.mp hmem with hmem | hmem
      · exact hearly step hmem clock hclock
      · cases mem_singleton.mp hmem
        by_contra hlate
        obtain ⟨t, ht, hstate⟩ := woken_of_apply hclock hstep
          (blocked_of_early hrun hblocked hearly) hi (by simpa using hlate)
        obtain ⟨t', ht', hready, hrunning⟩ :=
          hstays _ [] _ (append_nil _).symm (hrun.snoc hok hstep)
        cases ht.symm.trans ht'
        exact hstate.elim hready hrunning
  · intro hearly before after s' heq hbefore
    obtain ⟨t, ht, hstate, -⟩ := blocked_of_early hbefore hblocked
      fun step hmem => hearly step (heq ▸ mem_append_left _ hmem)
    exact ⟨t, ht, by simp [hstate]⟩

end Run

omit [DecidableEq κ] in
/-- **SIGSTOP** blocks a thread that was ready, with the wake-up time of its last sleep. -/
theorem sysKill_stop (hkill : sysKill s c pid sigStop = some (0, s₁)) (ht : s.Owns pid i t)
    (hready : t.state = .ready) :
    Holds s₁.threads i fun u => u.state = .blockedOther ∧ u.wakeupTime = t.wakeupTime := by
  rw [sysKill, if_neg (by decide)] at hkill
  split at hkill
  · cases hkill
  split_ifs at hkill with hexists
  · cases hkill
  obtain ⟨s2, hsent, hkill⟩ := bind_eq_some_iff.mp hkill
  have hkeeps : SignalKeeps pid sigStop fun u => u.pid = pid ∧ u.wakeupTime = t.wakeupTime ∧
      (u.state = .ready ∨ u.state = .blockedOther) :=
    { marks := by simp
      waits := fun _ hsig => absurd rfl hsig
      wakes := fun u hu hstate => by simp_all
      ends := fun hsig => absurd hsig (by decide)
      blocks := by simp_all }
  obtain ⟨hi, ht, hpid⟩ := ht
  obtain ⟨u, hu, hupid, hwakeup, hstate⟩ := (sendSignalToProcess_changes hsent).holds i _ hkeeps
    ⟨t, ht, hpid, rfl, .inl hready⟩
  rw [killSent, if_neg (by decide), if_pos rfl] at hkill
  split_ifs at hkill
  cases hkill
  rw [blockReady, System.threads_sweep]
  refine ⟨_, sweep_eq_some.mpr ⟨u, hu, rfl⟩, ?_⟩
  rcases hstate with hstate | hstate <;> simp [hi, hupid, hstate, hwakeup]

/-- **How long a process stays stopped**: its threads sleep until the end of their last sleep, which
is 0 for a thread that has never slept. -/
theorem staysStopped_iff_early {ticks : List (Step κ)}
    (hkill : sysKill s c pid sigStop = some (0, s₁)) (hrun : TickRun s₁ ticks s') :
    (∀ i t, s.Owns pid i t → t.state = .ready → StaysStopped s₁ ticks i) ↔
      ∀ i t, s.Owns pid i t → t.state = .ready → Early ticks i t.wakeupTime :=
  forall₂_congr fun _ _ => forall₂_congr fun ht hready =>
    staysStopped_iff hrun (sysKill_stop hkill ht hready) ht.1

/-- A full table with one ready thread, whose last sleep ends at a given second. -/
def stopSystem (wakeup : ℕ) : System Unit where
  threads i := some { newThread (if i = 2 then 2 else 0) i with
    state := if i = 2 then .ready else .notExist, wakeupTime := ⟨wakeup, 0⟩ }
  processes i := if i = 2 then some (signalProcess 1) else none
  current _ := 0
  tid_eq i t h := by
    cases h
    rfl

/-- A thread that is to sleep until second 5 stays stopped at second 0. -/
theorem staysStopped_of_sleeping : ∃ s₁ s',
    sysKill (stopSystem 5) () 2 sigStop = some (0, s₁) ∧ TickRun s₁ [tickNow] s' ∧
    ∀ i t, (stopSystem 5).Owns 2 i t → t.state = .ready → StaysStopped s₁ [tickNow] i := by
  obtain ⟨⟨r, s₁⟩, hs₁, rfl, s', hs', -⟩ : ∃ x ∈ sysKill (stopSystem 5) () 2 sigStop,
      x.1 = 0 ∧ ∃ s' ∈ tickNow.apply x.2, True := by decide +kernel
  have hrun : TickRun s₁ [tickNow] s' := (Run.nil s₁).snoc rfl hs'
  refine ⟨s₁, s', hs₁, hrun, (staysStopped_iff_early hs₁ hrun).mpr ?_⟩
  rintro i t ⟨-, ht, -⟩ - step hmem clock hclock
  cases ht
  cases mem_singleton.mp hmem
  cases hclock
  rfl

/-- **A stopped process runs again** at the next tick, if its thread has never slept. -/
theorem stopped_runs_again : ∃ s₁ s', sysKill (stopSystem 0) () 2 sigStop = some (0, s₁) ∧
    TickRun s₁ [.tick () fun _ => ⟨1, 0⟩] s' ∧
    (Holds (stopSystem 0).threads 2 fun t => t.pid = 2 ∧ t.state = .ready) ∧
    Holds s'.threads 2 fun t => t.state = .running := by
  obtain ⟨⟨r, s₁⟩, hs₁, rfl, s', hs', hrunning⟩ : ∃ x ∈ sysKill (stopSystem 0) () 2 sigStop,
      x.1 = 0 ∧ ∃ s' ∈ (Step.tick () fun _ => ⟨1, 0⟩).apply x.2,
        Holds s'.threads 2 fun t => t.state = .running := by decide +kernel
  exact ⟨s₁, s', hs₁, (Run.nil s₁).snoc rfl hs', by decide, hrunning⟩

end CarrotOS.Sched
