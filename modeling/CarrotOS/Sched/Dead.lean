import CarrotOS.Sched.Step

/-!
# Dead threads

A thread that has ended stays in the table as `THREAD_ENDED_BUT_NOT_CLEANED` and then as
`THREAD_DEAD`. The ticks and the exits leave it so. The loop that makes the threads of a process
wait for the handler of a signal does not look at their state: a dead thread waits like the others,
and is ready after the handler has returned.
-/

namespace CarrotOS.Sched

open Table Transition Option

variable {κ : Type} {s s' : System κ} {i : ℕ}

namespace Step

/-- The step gives the thread at `i` a state without a look at the one it has. -/
def Revives (s : System κ) : Step κ → ℕ → Thread → Prop
  | handleSignalProcess pid, _, t => t.pid = pid ∧ Holds s.processes pid fun p =>
    p.state ≠ .handlingSignal ∧ p.signal ≠ sigKill ∧ p.signal ≠ sigStop
  | handleSignalThread tid, _, t => Holds s.threads tid fun thread =>
    thread.signal ≠ 0 ∧ t.pid = thread.pid
  | sysKill _ pid sig, _, t => t.pid = pid ∧ sig ≠ sigKill ∧ sig ≠ sigStop
  -- a thread of a process that has ended runs up to the next tick of its core
  | kernelThreadSleep c _ _, i, _ | sleepByResource c _ _, i, _ => i = s.current c
  | _, _, _ => False

/-- The thread at `i` has not ended, or the step leaves it alone. -/
def LeavesDead (i : ℕ) (s : System κ) (step : Step κ) : Prop :=
  ¬ Holds s.threads i fun t => t.Gone ∧ step.Revives s i t

instance (step : Step κ) (i : ℕ) : DecidablePred (step.Revives s i) := fun _ =>
  match step with
  | .handleSignalProcess .. | .sysKill .. => inferInstanceAs (Decidable (_ ∧ _))
  | .handleSignalThread tid => inferInstanceAs (Decidable (Holds s.threads tid _))
  | .kernelThreadSleep c _ _ | .sleepByResource c _ _ =>
    inferInstanceAs (Decidable (i = s.current c))
  | .tick .. | .yield .. | .wake .. | .markCurrentThreadAsEnded .. | .markProcessAsEnded ..
  | .endThread .. | .sysRtSigreturn .. | .setProcess .. => inferInstanceAs (Decidable False)

instance (step : Step κ) : Decidable (step.LeavesDead i s) :=
  inferInstanceAs (Decidable (¬ _))

theorem keeps_gone (step : Step κ) (i : ℕ) :
    step.Keeps s i fun t => t.Gone ∧ ¬ step.Revives s i t := by
  -- a thread that has ended is in none of the states that the ticks and the wake-ups look for
  have hstate : ∀ {t : Thread} {state : ThreadState}, t.Gone → t.state = state →
      state = .endedButNotCleaned ∨ state = .dead := by
    rintro t state hgone rfl
    exact hgone
  have hpid : KeepsPid fun t : Thread => t.Gone ∧ ¬ step.Revives s i t :=
    fun t hP hblocked => absurd (hstate hP.1 hblocked) (by simp)
  cases step with
  | tick c clock | yield c clock =>
    refine ⟨?_, ?_, ?_, fun _ t _ _ _ => ⟨.inr rfl, id⟩⟩
    · exact fun t hP hblocked _ => absurd (hstate hP.1 hblocked) (by simp)
    · exact fun t hP hready => absurd (hstate hP.1 hready) (by simp)
    · exact fun _ t hP hrunning => absurd (hstate hP.1 hrunning) (by simp)
  | kernelThreadSleep c now durationUs => exact fun ha t _ hP => absurd ha hP.2
  | sleepByResource c flagAddr state => exact fun ha t hP => absurd ha hP.2
  | wake tid =>
    intro _ t hP hblocked
    rcases hP.1 with hgone | hgone <;> simp [hgone, ThreadState.blocked] at hblocked
  | markCurrentThreadAsEnded c returnCode =>
    exact ⟨fun _ t _ => ⟨.inl rfl, id⟩, fun t _ _ => ⟨.inl rfl, id⟩⟩
  | markProcessAsEnded c => exact fun t _ _ => ⟨.inl rfl, id⟩
  | endThread tid returnCode => exact fun _ t _ _ => ⟨.inr rfl, id⟩
  | handleSignalProcess pid =>
    refine ⟨?_, hpid⟩
    exact fun p hp hhandling hkill hstop t hP ht =>
      absurd ⟨ht, p, hp, hhandling, hkill, hstop⟩ hP.2
  | handleSignalThread tid =>
    exact fun thread hthread hsignal t hP ht => absurd ⟨thread, hthread, hsignal, ht⟩ hP.2
  | sysKill c pid sig =>
    refine ⟨fun t hP => hP, ?_, hpid, ?_, ?_⟩
    · exact fun hkill hstop t hP ht => absurd ⟨ht, hkill, hstop⟩ hP.2
    · exact fun _ t hP _ => ⟨.inl rfl, hP.2⟩
    · exact fun t hP hready => absurd (hstate hP.1 hready) (by simp)
  | sysRtSigreturn c =>
    refine ⟨fun _ t _ => ⟨.inl rfl, id⟩, fun t _ _ => ⟨.inl rfl, id⟩, ?_, fun _ t hP => hP⟩
    exact fun curr _ t hP _ hwaiting => absurd (hstate hP.1 hwaiting) (by simp)
  | setProcess pid process => trivial

end Step

/-- **One step** that spares the thread. -/
theorem gone_of_apply [DecidableEq κ] {step : Step κ} (hgone : Holds s.threads i Thread.Gone)
    (hspares : step.LeavesDead i s) (h : step.apply s = some s') :
    Holds s'.threads i Thread.Gone := by
  obtain ⟨t, ht, hgone⟩ := hgone
  have hP : Holds s.threads i fun t => t.Gone ∧ ¬ step.Revives s i t :=
    ⟨t, ht, hgone, fun hrevives => hspares ⟨t, ht, hgone, hrevives⟩⟩
  obtain ⟨t', ht', hgone', -⟩ := Step.holds_of_keeps h (step.keeps_gone i) hP
  exact ⟨t', ht', hgone'⟩

/-- **Every run** of steps that spare a thread which has ended: it is neither ready nor running. -/
theorem not_ready_of_gone [DecidableEq κ] {s₀ : System κ} {steps : List (Step κ)}
    (h₀ : Holds s₀.threads i Thread.Gone) (hrun : Run Step.apply (Step.LeavesDead i) s₀ steps s) :
    Holds s.threads i fun t => t.state ≠ .ready ∧ t.state ≠ .running := by
  obtain ⟨t, ht, hgone⟩ := hrun.invariant (fun s => Holds s.threads i Thread.Gone)
    (fun _ _ _ hs hspares h => gone_of_apply hs hspares h) h₀
  refine ⟨t, ht, ?_⟩
  rcases hgone with hgone | hgone <;> simp [hgone]

/-! ## A process with three threads and a process with one -/

/-- The threads 2, 3 and 4 of process 2 and thread 5 of process 3. They are ready, or the first one
is in another state. -/
def signalThreads (first : ThreadState) (i : ℕ) : Option Thread :=
  if i = 0 ∨ i = 2 ∨ i = 3 ∨ i = 4 ∨ i = 5 then
    some { pid := if i = 0 then 0 else if i = 5 then 3 else 2, tid := i,
           state := if i = 2 then first else .ready, wakeupTime := ⟨0, 0⟩, signal := 0,
           signalMask := 0, sleepFlagAddr := 0, returnCode := 0 }
  else none

/-- Signal 10 is pending for a process. -/
def signalProcess (threadsCount : ℕ) : Process :=
  { addr := 4096, state := .running, signal := 10, threadsCount := threadsCount, parentPid := 1,
    returnCode := 0 }

def signalSystem (first : ThreadState) : System Unit where
  threads := signalThreads first
  processes i :=
    if i = 2 then some (signalProcess 3) else if i = 3 then some (signalProcess 1) else none
  current _ := 0
  tid_eq i t h := by
    unfold signalThreads at h
    split_ifs at h
    all_goals
      cases h
      rfl

/-- The tick of a core whose clock stands still. -/
def tickNow : Step Unit :=
  .tick () fun _ => ⟨0, 0⟩

/-- The signal of process 3 is delivered while thread 2 is dead. The core runs two threads, the
handler, and a thread after it has returned. -/
def signalOther : List (Step Unit) :=
  [.handleSignalProcess 3, tickNow, tickNow, tickNow, .sysRtSigreturn (), tickNow]

/-- Thread 2 runs and ends, and is cleaned up. -/
def endFirst : List (Step Unit) :=
  [tickNow, .markCurrentThreadAsEnded () 0, tickNow]

/-- The signal of process 2 is delivered. The core runs thread 5, the handler, and a thread after
it has returned. -/
def signalOwn : List (Step Unit) :=
  [.handleSignalProcess 2, tickNow, tickNow, .sysRtSigreturn (), tickNow]

/-- A dead thread stays dead while another process has a signal. -/
theorem not_ready_of_gone_signalOther : ∃ s,
    Run Step.apply (Step.LeavesDead 2) (signalSystem .dead) signalOther s ∧
    Holds s.threads 2 fun t => t.state ≠ .ready ∧ t.state ≠ .running := by
  exact Run.exists_of_eval (Q := fun _ => True) (by decide +kernel)
    fun _ hrun _ => not_ready_of_gone (by decide) hrun

/-- **A dead thread runs again.** The signal of its process makes it wait for the handler with the
others. -/
theorem gone_runs_again : ∃ s₁ s,
    Run Step.apply (fun _ _ => True) (signalSystem .ready) endFirst s₁ ∧
    (Holds s₁.threads 2 fun t => t.state = .dead) ∧
    Run Step.apply (fun _ _ => True) s₁ signalOwn s ∧
    Holds s.threads 2 fun t => t.state = .running := by
  simp only [exists_and_left]
  refine Run.exists_of_eval (Q := fun s₁ => s₁.hasState 2 .dead ∧
    (signalOwn.foldlM Step.apply s₁).any fun s => s.hasState 2 .running) (by decide +kernel) ?_
  rintro s₁ - ⟨hdead, hlast⟩
  obtain ⟨s, hs, hrunning⟩ := any_eq_true _ _ |>.mp hlast
  exact ⟨hasState_iff.mp hdead, s, Run.of_guarded (by simpa using hs), hasState_iff.mp hrunning⟩

end CarrotOS.Sched
