import CarrotOS.Sched.Step
import Mathlib.Data.Fintype.Basic

/-!
# One core for each thread

A thread runs on one core only as long as no step makes it ready while a core still runs it. A
tick of another core takes every ready thread it finds, and does not look whether a core runs it.
A thread that blocks marks itself before it gives up the core, so for a while it is neither running
nor gone; if its time comes or if it is woken in between, two cores run it. The signals have the
same gap.
-/

namespace CarrotOS.Sched

open Table Transition

variable {κ : Type} {s s' : System κ}

/-! ## Safe steps -/

namespace Step

def Switches : Step κ → κ → Prop
  | tick c _, c' | yield c _, c' => c' = c
  | _, _ => False

/-- The step makes the thread at `i` ready, if it is as `t` says. -/
def Wakes (s : System κ) : Step κ → ℕ → Thread → Prop
  | tick _ clock, i, t | yield _ clock, i, t =>
    t.state = .blockedOther ∧ laterOrSame (clock i) t.wakeupTime = true
  | wake tid, i, t => i = tid ∧ t.state.blocked = true
  -- the parent of a process that is killed
  | handleSignalProcess _, _, t | sysKill _ _ _, _, t => t.state = .blockedPid
  | sysRtSigreturn c, _, t =>
    t.state = .waitingSignal ∧ Holds s.threads (s.current c) fun curr => t.pid = curr.pid
  | _, _, _ => False

/-- The state that a thread gives itself before it sleeps is one of the blocked ones. -/
def Blocks : Step κ → Prop
  | sleepByResource _ _ state => state = .notExist ∨ state.blocked = true
  | _ => True

/-- The step makes no thread ready that a core runs, unless it is about to leave this core. -/
def Safe (s : System κ) (step : Step κ) : Prop :=
  (∀ c, s.current c ≠ 0 → ¬ step.Switches c →
    ¬ Holds s.threads (s.current c) (step.Wakes s (s.current c))) ∧ step.Blocks

instance [DecidableEq κ] (step : Step κ) (c : κ) : Decidable (step.Switches c) :=
  match step with
  | .tick c' _ | .yield c' _ => inferInstanceAs (Decidable (c = c'))
  | .kernelThreadSleep .. | .sleepByResource .. | .wake .. | .markCurrentThreadAsEnded ..
  | .markProcessAsEnded .. | .endThread .. | .handleSignalProcess .. | .handleSignalThread ..
  | .sysKill .. | .sysRtSigreturn .. | .setProcess .. => inferInstanceAs (Decidable False)

instance (step : Step κ) (i : ℕ) : DecidablePred (step.Wakes s i) := fun t =>
  match step with
  | .tick .. | .yield .. | .wake .. | .sysRtSigreturn .. => inferInstanceAs (Decidable (_ ∧ _))
  | .handleSignalProcess .. | .sysKill .. => inferInstanceAs (Decidable (t.state = .blockedPid))
  | .kernelThreadSleep .. | .sleepByResource .. | .markCurrentThreadAsEnded ..
  | .markProcessAsEnded .. | .endThread .. | .handleSignalThread .. | .setProcess .. =>
    inferInstanceAs (Decidable False)

instance (step : Step κ) : Decidable step.Blocks :=
  match step with
  | .sleepByResource .. => inferInstanceAs (Decidable (_ ∨ _))
  | .tick .. | .yield .. | .kernelThreadSleep .. | .wake .. | .markCurrentThreadAsEnded ..
  | .markProcessAsEnded .. | .endThread .. | .handleSignalProcess .. | .handleSignalThread ..
  | .sysKill .. | .sysRtSigreturn .. | .setProcess .. => inferInstanceAs (Decidable True)

instance [Fintype κ] [DecidableEq κ] (step : Step κ) : Decidable (step.Safe s) :=
  inferInstanceAs (Decidable (_ ∧ _))

/-- A thread that a core runs, that is not ready and that the step does not make ready. -/
theorem keeps_not_ready {step : Step κ} {a : ℕ} (hblocks : step.Blocks)
    (hswitch : ∀ c, step.Switches c → a ≠ s.current c) :
    step.Keeps s a fun t => t.state ≠ .ready ∧ ¬ step.Wakes s a t := by
  cases step with
  | tick c clock | yield c clock =>
    refine ⟨?_, ?_, ?_, ?_⟩
    · exact fun t hP hstate hlater => absurd ⟨hstate, hlater⟩ hP.2
    · exact fun t hP hstate => absurd hstate hP.1
    · exact fun ha => absurd ha (hswitch c rfl)
    · exact fun ha => absurd ha (hswitch c rfl)
  | kernelThreadSleep c now durationUs =>
    intro _ t wakeupTime _
    simp [Wakes]
  | sleepByResource c flagAddr state =>
    intro _ t _
    refine ⟨?_, fun h => h⟩
    rcases hblocks with rfl | hblocked
    · simp
    · split_ifs
      · simp
      · rintro rfl
        simp [ThreadState.blocked] at hblocked
  | wake tid => exact fun ha t hP hblocked => absurd ⟨ha, hblocked⟩ hP.2
  | markCurrentThreadAsEnded c returnCode =>
    refine ⟨?_, ?_⟩
    · intro _ t _
      simp [Wakes]
    · intro t _ _
      simp [Wakes]
  | markProcessAsEnded c =>
    intro t _ _
    simp [Wakes]
  | endThread tid returnCode =>
    intro _ t _ _
    simp [Wakes]
  | handleSignalProcess pid =>
    refine ⟨?_, fun t hP hstate => absurd hstate hP.2⟩
    intro _ _ _ _ _ t _ _
    simp [Wakes]
  | handleSignalThread tid =>
    intro _ _ _ t _ _
    simp [Wakes]
  | sysKill c pid sig =>
    refine ⟨fun t hP => hP, ?_, fun t hP hstate => absurd hstate hP.2, ?_,
      fun t hP hstate => absurd hstate hP.1⟩
    · intro _ _ t _ _
      simp [Wakes]
    · intro _ t _ _
      simp [Wakes]
  | sysRtSigreturn c =>
    refine ⟨?_, ?_, ?_, fun _ t hP => hP⟩
    · intro _ t _
      simp [Wakes]
    · intro t _ _
      simp [Wakes]
    · exact fun curr hcurr t hP hpid hstate => absurd ⟨hstate, curr, hcurr, hpid⟩ hP.2
  | setProcess pid process => trivial

end Step

/-! ## Runs -/

/-- Different cores run different threads, and no thread is ready while a core runs it. The
idle thread is 0. -/
structure Apart (s : System κ) : Prop where
  not_ready : ∀ c, s.current c ≠ 0 → Holds s.threads (s.current c) fun t => t.state ≠ .ready
  ne : ∀ c c', c ≠ c' → s.current c ≠ 0 → s.current c ≠ s.current c'

theorem apart_of_idle (h : ∀ c, s.current c = 0) : Apart s :=
  ⟨fun c hc => absurd (h c) hc, fun c _ _ hc => absurd (h c) hc⟩

variable [DecidableEq κ]

theorem holds_current_of_safe {step : Step κ} {c : κ} (hs : Apart s) (hsafe : step.Safe s)
    (h : step.apply s = some s') (hc : s.current c ≠ 0) (hswitch : ¬ step.Switches c) :
    Holds s'.threads (s.current c) fun t => t.state ≠ .ready := by
  obtain ⟨t, ht, hready⟩ := hs.not_ready c hc
  have hP : Holds s.threads (s.current c)
      fun t => t.state ≠ .ready ∧ ¬ step.Wakes s (s.current c) t :=
    ⟨t, ht, hready, fun hwakes => hsafe.1 c hc hswitch ⟨t, ht, hwakes⟩⟩
  have hne : ∀ c', step.Switches c' → s.current c ≠ s.current c' := by
    intro c' hc'
    refine hs.ne c c' ?_ hc
    rintro rfl
    exact hswitch hc'
  obtain ⟨t', ht', hready', -⟩ := Step.holds_of_keeps h (Step.keeps_not_ready hsafe.2 hne) hP
  exact ⟨t', ht', hready'⟩

/-- A tick takes a thread that was ready or whose time has come: none that another core runs. -/
theorem apart_of_ticked {c : κ} {clock : ℕ → Timeval} (hs : Apart s)
    (h : Ticked clock s c s')
    (hexpired : ∀ c' ≠ c, s.current c' ≠ 0 → ¬ Holds s.threads (s.current c') fun t =>
      t.state = .blockedOther ∧ laterOrSame (clock (s.current c')) t.wakeupTime = true)
    (hothers : ∀ c' ≠ c, s.current c' ≠ 0 →
      Holds s'.threads (s.current c') fun t => t.state ≠ .ready) : Apart s' := by
  have hnew : s'.current c ≠ 0 → ∀ c' ≠ c, s.current c' ≠ 0 → s'.current c ≠ s.current c' := by
    intro hc c' hne hc' heq
    rcases h.next with hidle | ⟨hsame, -⟩ | ⟨hready, -⟩
    · exact hc hidle
    · exact hs.ne c' c hne hc' (heq.symm.trans hsame)
    · rw [heq] at hready
      obtain ⟨t, ht, hstate⟩ := ready_of_handleSleppingThread hready
      obtain ⟨t', ht', hnot⟩ := hs.not_ready c' hc'
      cases ht.symm.trans ht'
      rcases hstate with hstate | hstate
      · exact hnot hstate
      · exact hexpired c' hne hc' ⟨t, ht, hstate⟩
  refine ⟨?_, ?_⟩
  · intro c' hc'
    by_cases hne : c' = c
    · subst hne
      rcases h.next with hidle | ⟨-, hrunning⟩ | ⟨-, hrunning⟩
      · exact absurd hidle hc'
      all_goals
        obtain ⟨t, ht, hstate⟩ := hrunning
        exact ⟨t, ht, by simp [hstate]⟩
    · rw [h.current c' hne] at hc' ⊢
      exact hothers c' hne hc'
  · intro c1 c2 hne h1 heq
    -- at most one of the two is the core of the tick
    by_cases hc1 : c1 = c
    · subst hc1
      have h2 : s'.current c2 ≠ 0 := heq ▸ h1
      rw [h.current c2 hne.symm] at heq h2
      exact hnew h1 c2 hne.symm h2 heq
    · rw [h.current c1 hc1] at h1 heq
      by_cases hc2 : c2 = c
      · subst hc2
        exact hnew (heq ▸ h1) c1 hc1 h1 heq.symm
      · rw [h.current c2 hc2] at heq
        exact hs.ne c1 c2 hne h1 heq

/-- **One safe step** keeps the cores apart. -/
theorem apart_of_apply {step : Step κ} (hs : Apart s) (hsafe : step.Safe s)
    (h : step.apply s = some s') : Apart s' := by
  have hrest : (∀ c clock, step ≠ .tick c clock ∧ step ≠ .yield c clock) → Apart s' := by
    intro htick
    have hcurrent := (Step.changes_of_apply h htick).current
    have hswitch : ∀ c, ¬ step.Switches c := by
      intro c hc
      cases step with
      | tick c' clock => exact (htick c' clock).1 rfl
      | yield c' clock => exact (htick c' clock).2 rfl
      | _ => exact hc
    refine ⟨?_, ?_⟩
    · intro c hc
      rw [hcurrent] at hc ⊢
      exact holds_current_of_safe hs hsafe h hc (hswitch c)
    · rw [hcurrent]
      exact hs.ne
  cases step with
  | tick c clock =>
    exact apart_of_ticked hs (Step.ticked_of_tick h)
      (fun c' hne hc' => hsafe.1 c' hc' hne)
      fun c' hne hc' => holds_current_of_safe hs hsafe h hc' hne
  | yield c clock =>
    exact apart_of_ticked hs (Step.ticked_of_yield h)
      (fun c' hne hc' => hsafe.1 c' hc' hne)
      fun c' hne hc' => holds_current_of_safe hs hsafe h hc' hne
  | _ => exact hrest fun _ _ => by simp

/-- **Every run of safe steps** of any number of cores, in any order: two cores do not run one
thread. -/
theorem current_ne_of_safe {s₀ : System κ} {steps : List (Step κ)} (h₀ : Apart s₀)
    (hrun : Run Step.apply Step.Safe s₀ steps s) (c c' : κ) (hne : c ≠ c')
    (hc : s.current c ≠ 0) : s.current c ≠ s.current c' := by
  have hs : Apart s :=
    hrun.invariant Apart (fun _ _ _ hs hsafe h => apart_of_apply hs hsafe h) h₀
  exact hs.ne c c' hne hc

/-! ## Two cores and two threads -/

def readyThread (tid : ℕ) : Thread :=
  { pid := 1, tid := tid, state := .ready, wakeupTime := ⟨0, 0⟩, signal := 0, signalMask := 0,
    sleepFlagAddr := 0, returnCode := 0 }

/-- Two idle cores, and the ready threads 2 and 3. -/
def twoCores : System Bool where
  threads i := if i = 0 ∨ i = 2 ∨ i = 3 then some (readyThread i) else none
  processes _ := none
  current _ := 0
  tid_eq i t h := by
    split_ifs at h
    cases h
    rfl

def atTime (tvSec tvMicrosec : ℕ) : ℕ → Timeval := fun _ => ⟨tvSec, tvMicrosec⟩

/-- Both cores get a thread, the first one sleeps for ten microseconds and its core goes on. -/
def sleepAndYield : List (Step Bool) :=
  [.tick false (atTime 0 0), .tick true (atTime 0 1), .kernelThreadSleep false ⟨0, 2⟩ 10,
    .yield false (atTime 0 3), .tick true (atTime 0 20)]

def sleepAndTick : List (Step Bool) :=
  [.tick false (atTime 0 0), .kernelThreadSleep false ⟨0, 2⟩ 10, .tick true (atTime 0 20)]

/-- The thread that slept goes on at the other core, and at this one only. -/
theorem current_ne_of_safe_twoCores : ∃ s, Run Step.apply Step.Safe twoCores sleepAndYield s ∧
    s.current true = 2 ∧ s.current true ≠ s.current false := by
  refine Run.exists_of_eval (Q := fun s => s.current true = 2) (by decide +kernel) ?_
  intro s hrun hcurrent
  refine ⟨hcurrent, current_ne_of_safe (apart_of_idle fun _ => rfl) hrun true false (by decide) ?_⟩
  simp [hcurrent]

/-- **Two cores run one thread**, which has marked itself as sleeping, if the tick of the other core
comes before it gives up its own. -/
theorem current_eq_of_sleep : ∃ s,
    Run Step.apply (fun _ _ => True) twoCores sleepAndTick s ∧
    s.current false = 2 ∧ s.current true = 2 := by
  exact Run.exists_of_eval (by decide) fun _ _ h => h

end CarrotOS.Sched
