import CarrotOS.Sched.OneCore

/-!
# Which thread a switch chooses (`core/interrupt.h`)

The tick of a core that runs a thread and the tick of a thread that gives up its core look for the
next ready thread with the same loop, which comes back to every thread but the current one. They
use the result differently: `timer_tick1` takes thread 1 for no result, and
`timer_tick_from_non_idle` returns no value if the current thread is the only ready one.
-/

namespace CarrotOS.Sched

open Table List Option

variable {κ : Type}

/-- The first ready thread other than 0 in cyclic order behind `tid`, which comes last, and 0 if
there is none. -/
def firstReady (s : System κ) (tid : ℕ) : ℕ :=
  (((range' 1 maxThreadsCount).map fun i => (tid + i) % maxThreadsCount).find?
    fun idx => idx != 0 && s.hasState idx .ready).getD 0

/-- A tick returns `n`, which then is current; a thread other than 0 is running. -/
def SwitchesTo (c : κ) (n : ℕ) (tick : Option (ℕ × System κ)) : Prop :=
  ∃ s', tick = some (n, s') ∧ s'.current c = n ∧ (n ≠ 0 → s'.hasState n .running = true)

/-- Both ticks of a core that runs a thread switch to the first ready thread. -/
def TicksAgree [DecidableEq κ] (clock : ℕ → Timeval) (s : System κ) (c : κ) : Prop :=
  SwitchesTo c (firstReady (handleSleppingThread clock s) (s.current c))
      (timerTickFromNonIdle clock s c) ∧
    SwitchesTo c (firstReady (handleSleppingThread clock s) (s.current c)) (timerTick1 clock s c)

section Search

variable {s s' : System κ} {tid : ℕ}

/-- The loops of the ticks stop one thread before the current one. -/
theorem firstReady_eq (hpos : tid ≠ 0) (hlt : tid < maxThreadsCount) :
    firstReady s tid = if nextReady s tid = 0 then if s.hasState tid .ready then tid else 0
      else nextReady s tid := by
  have hround : (tid + (1 + 1 * (maxThreadsCount - 1))) % maxThreadsCount = tid := by
    unfold maxThreadsCount at *
    omega
  have hlist : range' 1 maxThreadsCount =
      range' 1 (maxThreadsCount - 1) ++ [1 + 1 * (maxThreadsCount - 1)] :=
    range'_concat
  rw [firstReady, nextReady, hlist, map_append, find?_append]
  generalize hfind : find? _ _ = found
  cases found with
  | none =>
    have hself : (tid != 0) = true := bne_iff_ne.mpr hpos
    simp only [map_cons, map_nil, hround, find?_singleton, hself, Bool.true_and,
      none_or, getD_none, if_true]
    split <;> rfl
  | some idx =>
    have hne : idx ≠ 0 := by
      have htest := find?_some hfind
      rw [Bool.and_eq_true] at htest
      simpa using htest.1
    simp [hne]

theorem exists_endCurrent (h : (s.threads tid).isSome) :
    ∃ s', endCurrent s tid = some s' ∧ (∀ a ≠ tid, s'.threads a = s.threads a) ∧
      ∀ state, state = .ready ∨ state = .running → s'.hasState tid state =
      s.hasState tid state := by
  obtain ⟨t, ht⟩ := isSome_iff_exists.mp h
  by_cases hended : s.hasState tid .endedButNotCleaned = true
  · refine ⟨_, by rw [endCurrent, if_pos hended, endThread, ht]; rfl, fun a ha =>
      modify_of_ne ha, ?_⟩
    obtain ⟨u, hu, hstate⟩ := hasState_iff.mp hended
    rintro state (rfl | rfl) <;> simp [System.hasState, Table.modify, hu, hstate]
  · exact ⟨s, if_neg hended, fun _ _ => rfl, fun _ _ => rfl⟩

end Search

variable [DecidableEq κ] {clock : ℕ → Timeval} {s s₁ : System κ} {c : κ} {n : ℕ}

theorem switches_run (hsome : (s.threads n).isSome) : SwitchesTo c n (runThread s c n) := by
  obtain ⟨t, ht⟩ := isSome_iff_exists.mp hsome
  have hrun : runThread s c n = some (n, (s.modify n (fun t => { t with state := .running })
      fun _ => rfl).setCurrent c t.tid) := by
    rw [runThread, ht]
    rfl
  obtain ⟨hcurrent, hrunning, -⟩ := runThread_spec hrun
  exact ⟨_, hrun, by rw [hcurrent, Function.update_self], fun _ => hasState_iff.mpr hrunning⟩

theorem switches_idle : SwitchesTo c 0 (some (0, s.setCurrent c 0)) :=
  ⟨_, rfl, Function.update_self .., fun h => absurd rfl h⟩

/-- **The two ticks choose alike** exactly if the first ready thread is neither thread 1 nor the one
that the core runs. -/
theorem ticksAgree_iff (hcur : (s.threads (s.current c)).isSome) (hpos : 1 ≤ s.current c)
    (hlt : s.current c < maxThreadsCount)
    (hrunning : (handleSleppingThread clock s).hasState (s.current c) .running = false) :
    TicksAgree clock s c ↔
      firstReady (handleSleppingThread clock s) (s.current c) ≠ 1 ∧
        firstReady (handleSleppingThread clock s) (s.current c) ≠ s.current c := by
  obtain ⟨t, ht⟩ := isSome_iff_exists.mp hcur
  have hsome : ((handleSleppingThread clock s).threads (s.current c)).isSome := by
    simp [handleSleppingThread, Table.sweep, ht]
  obtain ⟨s₁, hend, hsame, hstates⟩ := exists_endCurrent hsome
  have heq := firstReady_eq (s := handleSleppingThread clock s) (Nat.ne_of_gt hpos) hlt
  simp only [TicksAgree, timerTickFromNonIdle, timerTick1, ht, bind_eq_bind,
    bind_some, hend, hstates _ (.inl rfl), hstates _ (.inr rfl), hrunning]
  by_cases hnone : nextReady (handleSleppingThread clock s) (s.current c) = 0
  · -- no other thread is ready
    rw [if_pos hnone] at heq
    rw [hnone, heq]
    by_cases hready : (handleSleppingThread clock s).hasState (s.current c) .ready = true
    · simp [hready, SwitchesTo]
    · simp [hready, switches_idle]
      omega
  · obtain ⟨hready, hne⟩ := nextReady_spec (Nat.pos_of_ne_zero hnone)
    have hrun : SwitchesTo c (nextReady (handleSleppingThread clock s) (s.current c))
        (runThread (preempt s₁ (s.current c)) c
          (nextReady (handleSleppingThread clock s) (s.current c))) := by
      have hkeeps : (Changes s₁ (preempt s₁ (s.current c)) fun a P =>
          TickKeeps clock (s.current c) a P) ∧ _ := preempt_changes s₁ (s.current c)
      apply switches_run
      rw [hkeeps.2 _ hne, hsame _ hne]
      obtain ⟨u, hu, -⟩ := hready
      exact isSome_iff_exists.mpr ⟨u, hu⟩
    rw [if_neg hnone] at heq
    rw [heq, if_pos (Nat.pos_of_ne_zero hnone)]
    by_cases hone : nextReady (handleSleppingThread clock s) (s.current c) = 1
    · simp [hone, SwitchesTo]
    · rw [if_pos (by omega)]
      simp [hrun, hone, hne]

/-- A core runs thread 3, which waits; thread `other` is ready. -/
def waitingCore (other : ℕ) : System Unit where
  threads i := if i = 3 then some { readyThread 3 with state := .blockedNetwork }
    else if i = other then some (readyThread i) else none
  processes _ := none
  current _ := 3
  tid_eq i t h := by
    split_ifs at h with hi
    · cases h
      exact hi.symm
    · cases h
      rfl

theorem ticksAgree_iff_two : TicksAgree (atTime 0 0) (waitingCore 2) () :=
  (ticksAgree_iff rfl (by decide) (by decide) (by decide)).mpr
    ⟨by decide +kernel, by decide +kernel⟩

/-- Thread 1 is the first ready thread, and `timer_tick1` goes idle. -/
theorem ticks_differ_at_one :
    firstReady (handleSleppingThread (atTime 0 0) (waitingCore 1)) 3 = 1 ∧
      ¬ TicksAgree (atTime 0 0) (waitingCore 1) () := by
  have hfirst : firstReady (handleSleppingThread (atTime 0 0) (waitingCore 1)) 3 = 1 := by
    decide +kernel
  refine ⟨hfirst, ?_⟩
  rintro ⟨-, s', htick, -⟩
  have hidle : (timerTick1 (atTime 0 0) (waitingCore 1) ()).map Prod.fst = some 0 := by
    decide +kernel
  rw [show (waitingCore 1).current () = 3 from rfl, hfirst] at htick
  simp [htick] at hidle

end CarrotOS.Sched
