import CarrotOS.Sched.Step

/-!
# SIGKILL

`sys_kill` sends the signal, and `send_signal_to_process` already ends the process: `end_process`
marks it as `PROCESS_STOPPED` and wakes the threads that wait for it, and leaves its own threads
alone. Then `sys_kill` calls `mark_process_as_ended`, which marks the calling process and its
threads whatever argument it gets.
-/

namespace CarrotOS.Sched

open Table List Option Process

variable {κ : Type} {s s' s₁ : System κ} {c : κ} {i pid returnCode : ℕ} {p : Process} {t : Thread}

/-! ## Ending a process -/

/-- The parent of the process `q` after the children of `pid` have been given to process 1. -/
def Process.adopted (p : Process) (pid q : ℕ) : ℕ :=
  if q < maxProcessesCount ∧ p.parentPid = pid then 1 else p.parentPid

/-- A process whose children `end_process` does not count. -/
def Process.Finished (p : Process) : Prop :=
  p.state = .stopped ∨ p.state = .endedButNotCleaned

/-- `end_process` counts no child of `pid`. Only process 1 keeps its children. -/
def System.Childless (s : System κ) (pid : ℕ) : Prop :=
  pid = 1 → ∀ q < maxProcessesCount, q ≠ pid → ∀ p, s.processes q = some p → p.parentPid = pid →
    p.Finished ∨ p.state = .notExist

/-- The threads that `end_process` wakes when it ends the process `p` with the number `pid`. -/
def System.Wakes (s : System κ) (pid : ℕ) (p : Process) (t : Thread) : Prop :=
  t.pid = p.adopted pid pid ∧ t.state = .blockedPid ∧
    (t.sleepFlagAddr = 2 ^ 64 - 1 ∧ s.Childless pid ∨ t.sleepFlagAddr = p.lockAddr)

/-- The record of the process `q` after `end_process`. -/
def Process.ended (pid returnCode q : ℕ) (p : Process) : Process :=
  { p with
    state := if q = pid then .stopped else p.state
    parentPid := p.adopted pid q
    returnCode := if q = pid then returnCode else p.returnCode }

theorem endProcess_processes (s : System κ) (pid returnCode q : ℕ) :
    Table.modify (Table.sweep maxProcessesCount (fun _ p => p.parentPid == pid)
      (fun p => { p with parentPid := 1 }) (Table.modify s.processes pid fun p =>
        { p with state := .stopped })) pid (fun p => { p with returnCode := returnCode }) q =
    (s.processes q).map (ended pid returnCode q) := by
  by_cases hq : q = pid
  · subst hq
    rw [modify_self, sweep, modify_self, Option.map_map, Option.map_map]
    congr 1
    funext x
    by_cases hparent : q < maxProcessesCount ∧ x.parentPid = q
    · simp [ended, adopted, hparent]
    · simp [ended, adopted, hparent]
  · rw [modify_of_ne hq, sweep, modify_of_ne hq]
    congr 1
    funext x
    by_cases hparent : q < maxProcessesCount ∧ x.parentPid = pid
    · simp [ended, adopted, hparent, hq]
    · simp [ended, adopted, hparent, hq]

/-- The children that `end_process` counts. -/
theorem runningChildren_eq_zero
    (h : ∀ q, s₁.processes q = (s.processes q).map (ended pid returnCode q)) :
    s₁.runningChildren pid = 0 ↔ s.Childless pid := by
  have hcount : s₁.runningChildren pid = 0 ↔ ∀ q < maxProcessesCount, ∀ x, s.processes q = some x →
      x.adopted pid q = pid → q = pid ∨ x.Finished ∨ x.state = .notExist := by
    rw [System.runningChildren, countP_eq_zero]
    refine forall_congr' fun q => ?_
    rw [mem_range]
    refine forall_congr' fun hq => ?_
    rw [h q]
    cases hx : s.processes q with
    | none => simp
    | some x =>
      simp only [some.injEq, forall_eq']
      by_cases hqp : q = pid
      · simp [ended, hqp]
      · grind [ended, Process.Finished]
  rw [hcount]
  constructor
  · intro hall hpid q hq hne x hx hparent
    refine (hall q hq x hx ?_).resolve_left hne
    rw [adopted, if_pos ⟨hq, hparent⟩, hpid]
  · intro hchildless q hq x hx hadopted
    refine or_iff_not_imp_left.mpr fun hne => ?_
    -- a child that keeps the parent is a child of process 1
    by_cases hparent : x.parentPid = pid
    · rw [adopted, if_pos ⟨hq, hparent⟩] at hadopted
      exact hchildless hadopted.symm q hq hne x hx hparent
    · rw [adopted, if_neg fun hold => hparent hold.2] at hadopted
      exact absurd hadopted hparent

/-- **What `end_process` does**: the process is marked, its children get the parent 1, and the
threads that wait for it are ready. -/
theorem endProcess_spec (h : endProcess s pid returnCode = some s') : ∃ p test,
    s.processes pid = some p ∧ (∀ i t, test i t = true ↔ s.Wakes pid p t) ∧
    s'.threads = sweep maxThreadsCount test
      (fun t => { t with state := .ready, sleepFlagAddr := 0 }) s.threads ∧
    (∀ q, s'.processes q = (s.processes q).map (ended pid returnCode q)) ∧
    s'.current = s.current := by
  obtain ⟨p, hp, h⟩ := bind_eq_some_iff.mp h
  obtain ⟨proc, hproc, h⟩ := bind_eq_some_iff.mp h
  cases h
  have hprocesses := endProcess_processes s pid returnCode
  have hself : proc = ended pid returnCode pid p := by
    have hmap := hprocesses pid
    rw [hp, map_some] at hmap
    exact some.inj (hproc.symm.trans hmap)
  refine ⟨p, _, hp, fun i t => ?_, rfl, hprocesses, rfl⟩
  subst hself
  rw [Bool.and_eq_true, Bool.and_eq_true, Bool.or_eq_true, Bool.and_eq_true, beq_iff_eq, beq_iff_eq,
    beq_iff_eq, beq_iff_eq, beq_iff_eq, runningChildren_eq_zero hprocesses, and_assoc]
  rfl

theorem endProcess_isSome (hp : s.processes pid = some p) (returnCode : ℕ) :
    ∃ s', endProcess s pid returnCode = some s' := by
  have hended := endProcess_processes s pid returnCode pid
  rw [hp, map_some] at hended
  exact ⟨_, bind_eq_some_iff.mpr ⟨p, hp, bind_eq_some_iff.mpr ⟨_, hended, rfl⟩⟩⟩

/-! ## Sending the signal -/

/-- The thread takes a signal for its process. -/
def System.Takes (s : System κ) (pid sig i : ℕ) : Prop :=
  Holds s.threads i fun t => t.pid = pid ∧ isSignalMasked sig t.signalMask = false

/-- No null pointer stands before the first thread that takes the signal. -/
def System.Searchable (s : System κ) (pid sig : ℕ) : Prop :=
  ∀ i < maxThreadsCount, s.threads i = none → ∃ j < i, s.Takes pid sig j

/-- SIGKILL ends the process: it is not handling a signal, or no thread takes the signal. -/
def System.Ends (s : System κ) (pid : ℕ) (p : Process) : Prop :=
  p.state = .handlingSignal → ∀ i < maxThreadsCount, ¬ s.Takes pid sigKill i

theorem handlingThread_cases {sig a n : ℕ} :
    (handlingThread s pid sig (range' a n) = none ∧
      ∃ i, a ≤ i ∧ i < a + n ∧ s.threads i = none ∧ ∀ j, a ≤ j → j < i → ¬ s.Takes pid sig j) ∨
    (handlingThread s pid sig (range' a n) = some none ∧
      ∀ i, a ≤ i → i < a + n → (s.threads i).isSome ∧ ¬ s.Takes pid sig i) ∨
    ∃ i, handlingThread s pid sig (range' a n) = some (some i) ∧
      (a ≤ i ∧ i < a + n) ∧ s.Takes pid sig i ∧
      ∀ j, a ≤ j → j < i → (s.threads j).isSome ∧ ¬ s.Takes pid sig j := by
  induction n generalizing a with
  | zero => exact .inr (.inl ⟨rfl, by omega⟩)
  | succ n ih =>
    rw [range'_succ, handlingThread]
    cases hthread : s.threads a with
    | none => exact .inl ⟨rfl, a, Nat.le_refl a, by omega, hthread, by omega⟩
    | some t =>
      rw [bind_eq_bind, bind_some]
      by_cases htakes : s.Takes pid sig a
      · obtain ⟨t', ht', hpid, hmask⟩ := htakes
        cases hthread.symm.trans ht'
        refine .inr (.inr ⟨a, ?_, ⟨Nat.le_refl a, by omega⟩, ⟨t, hthread, hpid, hmask⟩, by omega⟩)
        rw [if_neg (not_not.mpr hpid), if_neg (by rw [hmask]; decide)]
      · -- the thread is passed over
        have hpass : (if t.pid ≠ pid then handlingThread s pid sig (range' (a + 1) n)
            else if isSignalMasked sig t.signalMask = true then
              handlingThread s pid sig (range' (a + 1) n)
            else some (some a)) = handlingThread s pid sig (range' (a + 1) n) := by
          split_ifs with hpid hmask
          · rfl
          · rfl
          · exact absurd ⟨t, hthread, not_not.mp hpid, Bool.eq_false_iff.mpr hmask⟩ htakes
        have hhere : (s.threads a).isSome ∧ ¬ s.Takes pid sig a := ⟨by rw [hthread]; rfl, htakes⟩
        have hrest : ∀ {j : ℕ}, a ≤ j → (a + 1 ≤ j → (s.threads j).isSome ∧ ¬ s.Takes pid sig j) →
            (s.threads j).isSome ∧ ¬ s.Takes pid sig j := by
          intro j hj h
          rcases Nat.eq_or_lt_of_le hj with rfl | hlt
          · exact hhere
          · exact h hlt
        rw [hpass]
        rcases ih (a := a + 1) with ⟨heq, i, hi, hlt, hnull, hbefore⟩ | ⟨heq, hall⟩ |
          ⟨i, heq, hi, htakes', hbefore⟩
        · refine .inl ⟨heq, i, by omega, by omega, hnull, fun j hj hji => ?_⟩
          rcases Nat.eq_or_lt_of_le hj with rfl | hlt'
          · exact htakes
          · exact hbefore j hlt' hji
        · refine .inr (.inl ⟨heq, fun i hi hlt => ?_⟩)
          exact hrest hi fun hi' => hall i hi' (by omega)
        · refine .inr (.inr ⟨i, heq, by omega, htakes', fun j hj hji => ?_⟩)
          exact hrest hj fun hj' => hbefore j hj' hji

/-- The systems are the same up to the signals of threads and processes. -/
structure Signalled (s s₁ : System κ) : Prop where
  current : s₁.current = s.current
  thread : ∀ i, s₁.threads i = none ∧ s.threads i = none ∨
    ∃ t sig, s.threads i = some t ∧ s₁.threads i = some { t with signal := sig }
  process : ∀ q, s₁.processes q = none ∧ s.processes q = none ∨
    ∃ x sig, s.processes q = some x ∧ s₁.processes q = some { x with signal := sig }

theorem Signalled.refl (s : System κ) : Signalled s s := by
  refine ⟨rfl, fun i => ?_, fun q => ?_⟩
  · cases hi : s.threads i with
    | none => exact .inl ⟨rfl, rfl⟩
    | some t => exact .inr ⟨t, t.signal, rfl, rfl⟩
  · cases hq : s.processes q with
    | none => exact .inl ⟨rfl, rfl⟩
    | some x => exact .inr ⟨x, x.signal, rfl, rfl⟩

theorem Signalled.of_modify (s : System κ) (i pid sig : ℕ) :
    Signalled s ((s.modify i (fun t => { t with signal := sig }) fun _ => rfl).modifyProcess pid
      fun p => { p with signal := sig }) := by
  refine ⟨rfl, fun a => ?_, fun q => ?_⟩
  · rcases modify_cases s.threads i (fun t => { t with signal := sig }) a with
      hnone | ⟨t, ht, hsome⟩
    · exact .inl hnone
    · refine .inr ⟨t, if a = i then sig else t.signal, ht, hsome.trans ?_⟩
      split_ifs <;> rfl
  · rcases modify_cases s.processes pid (fun p => { p with signal := sig }) q with
      hnone | ⟨x, hx, hsome⟩
    · exact .inl hnone
    · refine .inr ⟨x, if q = pid then sig else x.signal, hx, hsome.trans ?_⟩
      split_ifs <;> rfl

namespace Signalled

variable (h : Signalled s s₁)
include h

theorem thread_null (hi : s.threads i = none) : s₁.threads i = none := by
  rcases h.thread i with ⟨hnull, -⟩ | ⟨t, sig, ht, -⟩
  · exact hnull
  · cases hi.symm.trans ht

theorem thread_some (hi : s.threads i = some t) :
    ∃ sig, s₁.threads i = some { t with signal := sig } := by
  rcases h.thread i with ⟨-, hnull⟩ | ⟨t', sig, ht', hsig⟩
  · cases hi.symm.trans hnull
  · cases hi.symm.trans ht'
    exact ⟨sig, hsig⟩

theorem process_null {q : ℕ} (hq : s.processes q = none) : s₁.processes q = none := by
  rcases h.process q with ⟨hnull, -⟩ | ⟨x, sig, hx, -⟩
  · exact hnull
  · cases hq.symm.trans hx

theorem process_some {q : ℕ} (hq : s.processes q = some p) :
    ∃ sig, s₁.processes q = some { p with signal := sig } := by
  rcases h.process q with ⟨-, hnull⟩ | ⟨x, sig, hx, hsig⟩
  · cases hq.symm.trans hnull
  · cases hq.symm.trans hx
    exact ⟨sig, hsig⟩

theorem childless_iff : s₁.Childless pid ↔ s.Childless pid := by
  refine forall_congr' fun _ => forall_congr' fun q => forall_congr' fun _ =>
    forall_congr' fun _ => ?_
  cases hq : s.processes q with
  | none => rw [h.process_null hq]
  | some x =>
    obtain ⟨sig, hsig⟩ := h.process_some hq
    rw [hsig]
    simp [Process.Finished]

end Signalled

/-- What SIGKILL makes of the two tables when it is sent to the process `p` with the number
`pid`. -/
structure Sent (s : System κ) (pid : ℕ) (p : Process) (s' : System κ) : Prop where
  current : s'.current = s.current
  threadNull : ∀ i, s.threads i = none → s'.threads i = none
  wakes : ∀ i < maxThreadsCount, s.Ends pid p → ∀ t, s.threads i = some t → s.Wakes pid p t →
    Holds s'.threads i fun t' => t'.pid = t.pid ∧ t'.state = .ready
  keeps : ∀ i t, s.threads i = some t → (i < maxThreadsCount → s.Ends pid p → ¬ s.Wakes pid p t) →
    Holds s'.threads i fun t' =>
      t'.pid = t.pid ∧ t'.state = t.state ∧ t'.sleepFlagAddr = t.sleepFlagAddr
  processNull : ∀ q, s.processes q = none → s'.processes q = none
  process : ∀ q x, s.processes q = some x → Holds s'.processes q fun x' => x'.addr = x.addr ∧
    (s.Ends pid p → x'.parentPid = x.adopted pid q) ∧
    (¬ s.Ends pid p → x'.parentPid = x.parentPid) ∧
    (s.Ends pid p ∧ q = pid → x'.state = .stopped) ∧
      (¬ (s.Ends pid p ∧ q = pid) → x'.state = x.state)

/-- The process is ended. -/
theorem Sent.of_endProcess (hp : s.processes pid = some p) (hends : s.Ends pid p)
    (hsig : Signalled s s₁) (h : endProcess s₁ pid returnCode = some s') : Sent s pid p s' := by
  obtain ⟨p1, test, hp1, htest, hthreads, hprocesses, hcurrent⟩ := endProcess_spec h
  obtain ⟨sig, hself⟩ := hsig.process_some hp
  cases hself.symm.trans hp1
  have hwakes : ∀ i t sig', test i { t with signal := sig' } = true ↔ s.Wakes pid p t := by
    intro i t sig'
    rw [htest, System.Wakes, System.Wakes, hsig.childless_iff]
    rfl
  constructor
  · rw [hcurrent, hsig.current]
  · intro i hi
    rw [hthreads, sweep, hsig.thread_null hi]
    rfl
  · intro i hi _ t ht hw
    obtain ⟨sig', hsig'⟩ := hsig.thread_some ht
    rw [hthreads]
    refine ⟨_, sweep_eq_some.mpr ⟨_, hsig', rfl⟩, ?_⟩
    rw [if_pos ⟨hi, (hwakes i t sig').mpr hw⟩]
    exact ⟨rfl, rfl⟩
  · intro i t ht hkeep
    obtain ⟨sig', hsig'⟩ := hsig.thread_some ht
    rw [hthreads]
    refine ⟨_, sweep_eq_some.mpr ⟨_, hsig', rfl⟩, ?_⟩
    rw [if_neg fun hw => hkeep hw.1 hends ((hwakes i t sig').mp hw.2)]
    exact ⟨rfl, rfl, rfl⟩
  · intro q hq
    rw [hprocesses, hsig.process_null hq]
    rfl
  · intro q x hx
    obtain ⟨sig', hsig'⟩ := hsig.process_some hx
    have hx' : s'.processes q = some (ended pid returnCode q { x with signal := sig' }) := by
      rw [hprocesses, hsig']
      rfl
    refine ⟨_, hx', rfl, fun _ => rfl, fun hn => absurd hends hn, ?_, ?_⟩
    · rintro ⟨-, rfl⟩
      exact if_pos rfl
    · intro hne
      exact if_neg fun hq => hne ⟨hends, hq⟩

theorem Sent.of_handling (hends : ¬ s.Ends pid p) (hsig : Signalled s s') : Sent s pid p s' := by
  refine ⟨hsig.current, fun _ => hsig.thread_null, ?_, ?_, fun _ => hsig.process_null, ?_⟩
  · exact fun _ _ h => absurd h hends
  · intro i t ht _
    obtain ⟨sig, ht'⟩ := hsig.thread_some ht
    exact ⟨_, ht', rfl, rfl, rfl⟩
  · intro q x hx
    obtain ⟨sig, hx'⟩ := hsig.process_some hx
    exact ⟨_, hx', rfl, fun h => absurd h hends, fun _ => rfl, fun h =>
      absurd h.1 hends, fun _ => rfl⟩

theorem handleSignalProcess_kill (hp : s.processes pid = some p) (hsig : p.signal = sigKill) :
    handleSignalProcess s pid = if p.state = .handlingSignal then some (0, s)
      else (endProcess s pid 255).map fun s => (0, s) := by
  unfold handleSignalProcess
  rw [hp, bind_eq_bind, bind_some, if_pos hsig]

theorem processes_signalled (hp : s.processes pid = some p) (i sig : ℕ) :
    ((s.modify i (fun t => { t with signal := sig }) fun _ => rfl).modifyProcess pid
      fun p => { p with signal := sig }).processes pid = some { p with signal := sig } := by
  change Table.modify s.processes pid _ pid = _
  rw [modify_self, hp, map_some]

/-- **What SIGKILL does when it is sent.** -/
theorem sendSignal_spec (hp : s.processes pid = some p)
    (h : sendSignalToProcess s pid sigKill = some s') : Sent s pid p s' := by
  unfold sendSignalToProcess at h
  rw [range_eq_range'] at h
  rcases @handlingThread_cases _ s pid sigKill 0 maxThreadsCount with
    ⟨heq, -⟩ | ⟨heq, hall⟩ | ⟨i, heq, hi, htakes, -⟩
  · rw [heq] at h
    cases h
  · rw [heq, bind_eq_bind, bind_some] at h
    refine Sent.of_endProcess hp ?_ (Signalled.refl s) h
    intro _ i hi htakes
    exact (hall i (Nat.zero_le i) (by omega)).2 htakes
  · rw [heq, bind_eq_bind, bind_some] at h
    obtain ⟨proc, hproc, h⟩ := bind_eq_some_iff.mp h
    obtain ⟨⟨r, s₁⟩, hs1, h⟩ := bind_eq_some_iff.mp h
    cases h
    have hsig := Signalled.of_modify s i pid sigKill
    rw [handleSignalProcess_kill (processes_signalled hp i sigKill) rfl] at hs1
    split_ifs at hs1 with hhandling
    · cases hs1
      exact Sent.of_handling (fun hends => hends hhandling i (by omega) htakes) hsig
    · obtain ⟨s2, hend, heq⟩ := map_eq_some_iff.mp hs1
      cases heq
      exact Sent.of_endProcess hp (fun h => absurd h hhandling) hsig hend

theorem Sent.pid_eq (h : Sent s pid p s') (ht : s.threads i = some t) :
    Holds s'.threads i fun t' => t'.pid = t.pid := by
  by_cases hwakes : i < maxThreadsCount ∧ s.Ends pid p ∧ s.Wakes pid p t
  · obtain ⟨t', ht', hpid, -⟩ := h.wakes i hwakes.1 hwakes.2.1 t ht hwakes.2.2
    exact ⟨t', ht', hpid⟩
  · obtain ⟨t', ht', hpid, -⟩ := h.keeps i t ht fun hi hends hw => hwakes ⟨hi, hends, hw⟩
    exact ⟨t', ht', hpid⟩

/-- Only a null pointer keeps SIGKILL from being sent. -/
theorem sendSignal_isSome_iff (hp : s.processes pid = some p) :
    (∃ s', sendSignalToProcess s pid sigKill = some s') ↔ s.Searchable pid sigKill := by
  unfold sendSignalToProcess
  rw [range_eq_range']
  rcases @handlingThread_cases _ s pid sigKill 0 maxThreadsCount with
    ⟨heq, i, -, hi, hnull, hbefore⟩ | ⟨heq, hall⟩ | ⟨i, heq, -, htakes, hbefore⟩
  · rw [heq]
    refine iff_of_false (fun ⟨s', h⟩ => nomatch h) fun hsearch => ?_
    obtain ⟨j, hj, htakes⟩ := hsearch i (by omega) hnull
    exact hbefore j (Nat.zero_le j) hj htakes
  · rw [heq]
    refine iff_of_true (endProcess_isSome hp _) fun i hi hnull => ?_
    have hsome := (hall i (Nat.zero_le i) (by omega)).1
    rw [hnull] at hsome
    cases hsome
  · rw [heq, bind_eq_bind, bind_some]
    constructor
    · rintro - k hk hnull
      -- the null pointer stands behind the thread that was found
      refine ⟨i, Nat.lt_of_not_le fun hki => ?_, htakes⟩
      rcases Nat.eq_or_lt_of_le hki with rfl | hlt
      · obtain ⟨t, ht, -⟩ := htakes
        cases hnull.symm.trans ht
      · have hsome := (hbefore k (Nat.zero_le k) hlt).1
        rw [hnull] at hsome
        cases hsome
    · rintro -
      have hself := processes_signalled hp i sigKill
      obtain ⟨s2, hs2⟩ := endProcess_isSome hself 255
      have hhandle := handleSignalProcess_kill hself rfl
      rw [hs2, map_some] at hhandle
      split_ifs at hhandle
      · exact ⟨_, bind_eq_some_iff.mpr ⟨p, hp,
          bind_eq_some_iff.mpr ⟨_, hhandle, rfl⟩⟩⟩
      · exact ⟨_, bind_eq_some_iff.mpr ⟨p, hp,
          bind_eq_some_iff.mpr ⟨_, hhandle, rfl⟩⟩⟩

/-! ## Marking the caller -/

/-- What `mark_process_as_ended` makes of the two tables when it marks the process `pid`. -/
structure Marked (s : System κ) (pid : ℕ) (s' : System κ) : Prop where
  current : s'.current = s.current
  threadNull : ∀ i, s.threads i = none → s'.threads i = none
  thread : ∀ i t, s.threads i = some t → Holds s'.threads i fun t' =>
    t'.pid = t.pid ∧ t'.sleepFlagAddr = t.sleepFlagAddr ∧
      t'.state = if i < maxThreadsCount ∧ t.pid = pid ∧ t.state ≠ .notExist then .endedButNotCleaned
        else t.state
  processNull : ∀ q, s.processes q = none → s'.processes q = none
  process : ∀ q x, s.processes q = some x → Holds s'.processes q fun x' =>
    x'.addr = x.addr ∧ x'.parentPid = x.parentPid ∧
      x'.state = if q = pid then .endedButNotCleaned else x.state

/-- **What `mark_process_as_ended` does.** -/
theorem markProcessAsEnded_spec (ht : s.threads (s.current c) = some t)
    (h : markProcessAsEnded s c = some s') : Marked s t.pid s' := by
  obtain ⟨curr, hcurr, h⟩ := bind_eq_some_iff.mp h
  cases ht.symm.trans hcurr
  obtain ⟨proc, -, h⟩ := bind_eq_some_iff.mp h
  cases h
  refine ⟨rfl, fun i hi => ?_, fun i u hu => ?_, fun q hq => ?_, fun q x hx => ?_⟩
  · change Option.map _ (s.threads i) = none
    rw [hi, map_none]
  · rw [System.threads_sweep]
    refine ⟨_, sweep_eq_some.mpr ⟨u, hu, rfl⟩, ?_⟩
    -- a thread that is marked already stays marked
    by_cases hspec : i < maxThreadsCount ∧ u.pid = t.pid ∧ u.state ≠ .notExist
    · rw [if_pos hspec]
      by_cases hmarked : u.state = .endedButNotCleaned
      · rw [if_neg (by simp [hmarked])]
        exact ⟨rfl, rfl, hmarked⟩
      · rw [if_pos (by simp [hspec, hmarked])]
        exact ⟨rfl, rfl, rfl⟩
    · rw [if_neg hspec, if_neg fun hmark => hspec (by simp_all)]
      exact ⟨rfl, rfl, rfl⟩
  · change Table.modify s.processes t.pid _ q = none
    by_cases hqp : q = t.pid
    · rw [← hqp, modify_self, hq]
      rfl
    · rw [modify_of_ne hqp, hq]
  · refine ⟨_, modify_eq_some.mpr ⟨x, hx, rfl⟩, ?_⟩
    split_ifs with hqp
    · exact ⟨rfl, rfl, rfl⟩
    · exact ⟨rfl, rfl, rfl⟩

theorem markProcessAsEnded_isSome_iff :
    (∃ s', markProcessAsEnded s c = some s') ↔
      Holds s.threads (s.current c) fun t => (s.processes t.pid).isSome := by
  constructor
  · rintro ⟨s', h⟩
    obtain ⟨curr, hcurr, h⟩ := bind_eq_some_iff.mp h
    obtain ⟨proc, hproc, -⟩ := bind_eq_some_iff.mp h
    exact ⟨curr, hcurr, isSome_iff_exists.mpr ⟨proc, hproc⟩⟩
  · rintro ⟨curr, hcurr, hsome⟩
    obtain ⟨proc, hproc⟩ := isSome_iff_exists.mp hsome
    exact ⟨_, bind_eq_some_iff.mpr ⟨curr, hcurr,
      bind_eq_some_iff.mpr ⟨proc, hproc, rfl⟩⟩⟩

/-! ## The system call -/

/-- **What `sys_kill` does with SIGKILL**: the signal is sent, and the calling process is marked. -/
theorem sysKill_spec {r : ℕ} (hp : s.processes pid = some p) (hlive : p.state ≠ .notExist)
    (hcurr : s.threads (s.current c) = some t) (h : sysKill s c pid sigKill = some (r, s')) :
    ∃ s₁, Sent s pid p s₁ ∧ Marked s₁ t.pid s' := by
  unfold sysKill at h
  rw [if_neg (by decide), hp] at h
  dsimp only at h
  rw [if_neg hlive] at h
  obtain ⟨s₁, hsend, h⟩ := bind_eq_some_iff.mp h
  obtain ⟨s2, hmark, heq⟩ := map_eq_some_iff.mp h
  cases heq
  have hsent := sendSignal_spec hp hsend
  obtain ⟨t1, ht1, hpid⟩ := hsent.pid_eq hcurr
  rw [← hsent.current] at ht1
  exact ⟨s₁, hsent, hpid ▸ markProcessAsEnded_spec ht1 hmark⟩

theorem sysKill_isSome_iff (hp : s.processes pid = some p) (hlive : p.state ≠ .notExist) :
    (∃ r s', sysKill s c pid sigKill = some (r, s')) ↔ s.Searchable pid sigKill ∧
      Holds s.threads (s.current c) fun t => (s.processes t.pid).isSome := by
  unfold sysKill
  rw [if_neg (by decide), hp]
  dsimp only
  rw [if_neg hlive]
  -- sending keeps what marking needs
  have hmark : ∀ s₁, sendSignalToProcess s pid sigKill = some s₁ →
      ((∃ s', markProcessAsEnded s₁ c = some s') ↔
        Holds s.threads (s.current c) fun t => (s.processes t.pid).isSome) := by
    intro s₁ hsend
    have hsent := sendSignal_spec hp hsend
    rw [markProcessAsEnded_isSome_iff, hsent.current]
    have hproc : ∀ q, (s₁.processes q).isSome = (s.processes q).isSome := by
      intro q
      cases hq : s.processes q with
      | none => rw [hsent.processNull q hq]
      | some x =>
        obtain ⟨x', hx', -⟩ := hsent.process q x hq
        rw [hx']
        rfl
    cases hcurr : s.threads (s.current c) with
    | none =>
      have hnull := hsent.threadNull _ hcurr
      simp [Holds, hcurr, hnull]
    | some t =>
      obtain ⟨t1, ht1, hpid⟩ := hsent.pid_eq hcurr
      simp [Holds, hcurr, ht1, hpid, hproc]
  constructor
  · rintro ⟨r, s', h⟩
    obtain ⟨s₁, hsend, h⟩ := bind_eq_some_iff.mp h
    obtain ⟨s2, hs2, -⟩ := map_eq_some_iff.mp h
    exact ⟨(sendSignal_isSome_iff hp).mp ⟨s₁, hsend⟩, (hmark s₁ hsend).mp ⟨s2, hs2⟩⟩
  · rintro ⟨hsearch, hcaller⟩
    obtain ⟨s₁, hsend⟩ := (sendSignal_isSome_iff hp).mpr hsearch
    obtain ⟨s2, hs2⟩ := (hmark s₁ hsend).mpr hcaller
    refine ⟨0, s2, bind_eq_some_iff.mpr ⟨s₁, hsend, ?_⟩⟩
    unfold killSent
    rw [if_pos rfl, hs2]
    rfl

section Killed

variable {q : ℕ} (hsent : Sent s pid p s₁) (hmark : Marked s₁ q s')
include hsent hmark

/-- A thread after the signal has been sent and the process `q` has been marked. -/
theorem killed_thread (hi : i < maxThreadsCount) (ht : s.threads i = some t) :
    Holds s'.threads i fun t' => t'.pid = t.pid ∧
      (t.pid = q ∧ t.state ≠ .notExist → t'.state = .endedButNotCleaned) ∧
      (¬ (t.pid = q ∧ t.state ≠ .notExist) →
        (s.Ends pid p ∧ s.Wakes pid p t → t'.state = .ready) ∧
        (¬ (s.Ends pid p ∧ s.Wakes pid p t) →
          t'.state = t.state ∧ t'.sleepFlagAddr = t.sleepFlagAddr)) := by
  by_cases hwakes : s.Ends pid p ∧ s.Wakes pid p t
  · obtain ⟨t1, ht1, hpid1, hready⟩ := hsent.wakes i hi hwakes.1 t ht hwakes.2
    obtain ⟨t', ht', hpid, -, hstate⟩ := hmark.thread i t1 ht1
    refine ⟨t', ht', hpid.trans hpid1, fun hq => ?_, fun hq => ⟨fun _ => ?_, fun hn => ?_⟩⟩
    · rw [hstate, if_pos ⟨hi, hpid1.trans hq.1, by simp [hready]⟩]
    · have hne : t.pid ≠ q := fun heq => hq ⟨heq, by simp [hwakes.2.2.1]⟩
      rw [hstate, if_neg fun hmarks => hne (hpid1.symm.trans hmarks.2.1), hready]
    · exact absurd hwakes hn
  · obtain ⟨t1, ht1, hpid1, hsame, hflag1⟩ :=
      hsent.keeps i t ht fun _ hends hw => hwakes ⟨hends, hw⟩
    obtain ⟨t', ht', hpid, hflag, hstate⟩ := hmark.thread i t1 ht1
    rw [hpid1, hsame] at hstate
    refine ⟨t', ht', hpid.trans hpid1, fun hq => ?_, fun hq => ⟨fun hw => ?_, fun _ => ?_⟩⟩
    · rw [hstate, if_pos ⟨hi, hq⟩]
    · exact absurd hw hwakes
    · rw [hstate, if_neg fun hmarks => hq hmarks.2]
      exact ⟨rfl, hflag.trans hflag1⟩

theorem killed_process {k : ℕ} {x : Process} (hx : s.processes k = some x) :
    Holds s'.processes k fun x' => x'.addr = x.addr ∧
      (s.Ends pid p → x'.parentPid = x.adopted pid k) ∧
      (¬ s.Ends pid p → x'.parentPid = x.parentPid) ∧
      (k = q → x'.state = .endedButNotCleaned) ∧
      (k ≠ q → (s.Ends pid p ∧ k = pid → x'.state = .stopped) ∧
        (¬ (s.Ends pid p ∧ k = pid) → x'.state = x.state)) := by
  obtain ⟨x1, hx1, haddr1, hadopted, hparent1, hstopped, hkept⟩ := hsent.process k x hx
  obtain ⟨x', hx', haddr, hparent, hstate⟩ := hmark.process k x1 hx1
  refine ⟨x', hx', haddr.trans haddr1, fun hends => hparent.trans (hadopted hends),
    fun hends => hparent.trans (hparent1 hends), fun hk => ?_, fun hk => ?_⟩
  · rw [hstate, if_pos hk]
  · rw [hstate, if_neg hk]
    exact ⟨hstopped, hkept⟩

theorem killed_thread_back {t' : Thread} (hi : i < maxThreadsCount) (ht' : s'.threads i = some t') :
    ∃ t, s.threads i = some t ∧ t.pid = t'.pid := by
  cases ht : s.threads i with
  | none =>
    have hnull := hmark.threadNull i (hsent.threadNull i ht)
    cases ht'.symm.trans hnull
  | some t =>
    obtain ⟨u, hu, hpid, -⟩ := killed_thread hsent hmark hi ht
    cases ht'.symm.trans hu
    exact ⟨t, rfl, hpid.symm⟩

end Killed

/-! ## What the call is for -/

/-- The threads of the process have ended and the process is marked, and no other thread and no
other process has changed its state. -/
structure KillsExactly (s : System κ) (pid : ℕ) (s' : System κ) : Prop where
  threads : ∀ i < maxThreadsCount, ∀ t, s'.threads i = some t → t.pid = pid → t.Gone
  process : Holds s'.processes pid Process.Finished
  otherThreads : ∀ i < maxThreadsCount, ∀ t, s.threads i = some t → t.pid ≠ pid →
    Holds s'.threads i fun t' => t'.state = t.state
  otherProcesses : ∀ q ≠ pid, ∀ x, s.processes q = some x →
    Holds s'.processes q fun x' => x'.state = x.state

def System.ThreadsOf (s : System κ) (pid : ℕ) (P : Thread → Prop) : Prop :=
  ∀ i < maxThreadsCount, ∀ t, s.threads i = some t → t.pid = pid → P t

/-- What has to hold for SIGKILL from the process `q` to the process `p`: a process that kills
itself must have started all its threads; one that kills another is ended instead of it, so both
must be over before. -/
structure System.Spares (s : System κ) (q pid : ℕ) (p : Process) : Prop where
  own : q = pid → s.ThreadsOf pid fun t => t.state ≠ .notExist
  target : q ≠ pid → s.Ends pid p ∧ s.ThreadsOf pid Thread.Gone
  caller : q ≠ pid → Holds s.processes q (fun x => x.state = .endedButNotCleaned) ∧
    s.ThreadsOf q fun t => t.state = .notExist ∨ t.state = .endedButNotCleaned
  wakes : s.Ends pid p → ∀ i < maxThreadsCount, ∀ t, s.threads i = some t → t.pid ≠ pid →
    ¬ s.Wakes pid p t

section Exactly

variable {q : ℕ} {x : Process} (hsent : Sent s pid p s₁) (hmark : Marked s₁ q s')
  (hp : s.processes pid = some p) (hq : s.processes q = some x)
include hsent hmark hp

theorem KillsExactly.of_spares (h : s.Spares q pid p) : KillsExactly s pid s' := by
  refine ⟨fun i hi t' ht' hpid => ?_, ?_, fun i hi t ht hne => ?_, fun k hk y hy => ?_⟩
  · obtain ⟨t, ht, htpid⟩ := killed_thread_back hsent hmark hi ht'
    obtain ⟨u, hu, -, hends, helse⟩ := killed_thread hsent hmark hi ht
    cases ht'.symm.trans hu
    have htarget : t.pid = pid := htpid.trans hpid
    by_cases hqp : q = pid
    · exact .inl (hends ⟨htarget.trans hqp.symm, h.own hqp i hi t ht htarget⟩)
    · -- a thread that is over is neither marked nor woken
      have hgone := (h.target hqp).2 i hi t ht htarget
      have hkept := (helse fun hm => hqp (hm.1.symm.trans htarget)).2 fun hw => by
        rcases hgone with hg | hg
        · cases hw.2.2.1.symm.trans hg
        · cases hw.2.2.1.symm.trans hg
      rw [Thread.Gone, hkept.1]
      exact hgone
  · obtain ⟨p', hp', -, -, -, hmarked, helse⟩ := killed_process hsent hmark hp
    refine ⟨p', hp', ?_⟩
    by_cases hqp : q = pid
    · exact .inr (hmarked hqp.symm)
    · exact .inl ((helse (Ne.symm hqp)).1 ⟨(h.target hqp).1, rfl⟩)
  · obtain ⟨t', ht', -, hends, helse⟩ := killed_thread hsent hmark hi ht
    refine ⟨t', ht', ?_⟩
    by_cases hm : t.pid = q ∧ t.state ≠ .notExist
    · have hqp : q ≠ pid := fun heq => hne (hm.1.trans heq)
      exact (hends hm).trans (((h.caller hqp).2 i hi t ht hm.1).resolve_left hm.2).symm
    · exact ((helse hm).2 fun hw => h.wakes hw.1 i hi t ht hne hw.2).1
  · obtain ⟨y', hy', -, -, -, hmarked, helse⟩ := killed_process hsent hmark hy
    refine ⟨y', hy', ?_⟩
    by_cases hkq : k = q
    · subst hkq
      obtain ⟨⟨y0, hy0, hstate⟩, -⟩ := h.caller hk
      cases hy.symm.trans hy0
      rw [hmarked rfl, hstate]
    · exact (helse hkq).2 fun hend => hk hend.2

include hq

theorem KillsExactly.spares (h : KillsExactly s pid s') : s.Spares q pid p := by
  refine ⟨fun hqp i hi t ht hpid hstate => ?_, fun hqp => ⟨?_, fun i hi t ht hpid => ?_⟩,
    fun hqp => ⟨?_, fun i hi t ht hpid => ?_⟩, fun hends i hi t ht hne hw => ?_⟩
  · obtain ⟨t', ht', hpid', -, helse⟩ := killed_thread hsent hmark hi ht
    have hkept := (helse fun hm => hm.2 hstate).2 fun hw => by
      exact absurd (hw.2.2.1.symm.trans hstate) (by decide)
    have hgone := h.threads i hi t' ht' (hpid'.trans hpid)
    rw [Thread.Gone, hkept.1, hstate] at hgone
    exact absurd hgone (by decide)
  · obtain ⟨p', hp', -, -, -, -, helse⟩ := killed_process hsent hmark hp
    obtain ⟨p'', hp'', hfinished⟩ := h.process
    cases hp'.symm.trans hp''
    intro hhandling i hi htakes
    -- a process that goes on handling its signal is not finished
    have hnot : ¬ (s.Ends pid p ∧ pid = pid) := fun hends => hends.1 hhandling i hi htakes
    rw [Process.Finished, (helse (Ne.symm hqp)).2 hnot, hhandling] at hfinished
    exact absurd hfinished (by decide)
  · obtain ⟨t', ht', hpid', -, helse⟩ := killed_thread hsent hmark hi ht
    have hgone := h.threads i hi t' ht' (hpid'.trans hpid)
    have helse := helse fun hm => hqp (hm.1.symm.trans hpid)
    by_cases hw : s.Ends pid p ∧ s.Wakes pid p t
    · rw [Thread.Gone, helse.1 hw] at hgone
      exact absurd hgone (by decide)
    · rw [Thread.Gone, (helse.2 hw).1] at hgone
      exact hgone
  · obtain ⟨x', hx', -, -, -, hmarked, -⟩ := killed_process hsent hmark hq
    obtain ⟨x'', hx'', hsame⟩ := h.otherProcesses q hqp x hq
    cases hx'.symm.trans hx''
    exact ⟨x, hq, hsame.symm.trans (hmarked rfl)⟩
  · obtain ⟨t', ht', -, hends, -⟩ := killed_thread hsent hmark hi ht
    obtain ⟨t'', ht'', hsame⟩ := h.otherThreads i hi t ht fun heq => hqp (hpid.symm.trans heq)
    cases ht'.symm.trans ht''
    refine or_iff_not_imp_left.mpr fun hexists => ?_
    exact hsame.symm.trans (hends ⟨hpid, hexists⟩)
  · obtain ⟨t', ht', -, hmarked, helse⟩ := killed_thread hsent hmark hi ht
    obtain ⟨t'', ht'', hsame⟩ := h.otherThreads i hi t ht hne
    cases ht'.symm.trans ht''
    rw [hw.2.1] at hsame
    by_cases hm : t.pid = q ∧ t.state ≠ .notExist
    · exact absurd ((hmarked hm).symm.trans hsame) (by decide)
    · exact absurd (((helse hm).1 ⟨hends, hw⟩).symm.trans hsame) (by decide)

end Exactly

/-- **When SIGKILL hits exactly its target**: no null pointer is followed, and `Spares` holds. -/
theorem killsExactly_iff (hp : s.processes pid = some p) (hlive : p.state ≠ .notExist) :
    (∃ r s', sysKill s c pid sigKill = some (r, s') ∧ KillsExactly s pid s') ↔
      s.Searchable pid sigKill ∧ Holds s.threads (s.current c) fun t =>
        (s.processes t.pid).isSome ∧ s.Spares t.pid pid p := by
  constructor
  · rintro ⟨r, s', hkill, hexact⟩
    obtain ⟨hsearch, t, ht, hsome⟩ := (sysKill_isSome_iff hp hlive).mp ⟨r, s', hkill⟩
    obtain ⟨s₁, hsent, hmark⟩ := sysKill_spec hp hlive ht hkill
    obtain ⟨x, hx⟩ := isSome_iff_exists.mp hsome
    exact ⟨hsearch, t, ht, hsome, hexact.spares hsent hmark hp hx⟩
  · rintro ⟨hsearch, t, ht, hsome, hspares⟩
    obtain ⟨r, s', hkill⟩ := (sysKill_isSome_iff hp hlive).mpr ⟨hsearch, t, ht, hsome⟩
    obtain ⟨s₁, hsent, hmark⟩ := sysKill_spec hp hlive ht hkill
    exact ⟨r, s', hkill, .of_spares hsent hmark hp hspares⟩

/-- Process 2 and its child with one thread each; the parent runs. -/
def killTables : System Unit where
  threads i :=
    if i = 0 then some (newThread 0 0)
    else if i = 1 then some { newThread 2 1 with state := .running }
    else if i = 2 then some { newThread 3 2 with state := .ready }
    else none
  processes q :=
    if q = 2 ∨ q = 3 then some ⟨4096 * q, .running, 0, 1, q - 1, 0⟩ else none
  current _ := 1
  tid_eq i t ht := by
    split_ifs at ht with h₀ h₁ h₂
    · rw [← some.inj ht, h₀]
      rfl
    · rw [← some.inj ht, h₁]
      rfl
    · rw [← some.inj ht, h₂]
      rfl

theorem killTables_eq {t : Thread} (h : killTables.threads i = some t) :
    i < 3 ∧ t.state ≠ .blockedPid ∧ (t.pid = 2 → t.state = .running) := by
  change (if i = 0 then _ else if i = 1 then _ else if i = 2 then _ else none) = some t at h
  split_ifs at h <;> cases h <;> simp_all [newThread]

/-- A process that kills itself. -/
theorem killsExactly_iff_self :
    ∃ r s', sysKill killTables () 2 sigKill = some (r, s') ∧ KillsExactly killTables 2 s' := by
  refine (killsExactly_iff (p := ⟨8192, .running, 0, 1, 1, 0⟩) rfl (by decide)).mpr ⟨?_, ?_⟩
  · intro i _ hnull
    refine ⟨1, ?_, { newThread 2 1 with state := .running }, rfl, rfl, by decide⟩
    rcases i with - | - | i
    · cases hnull
    · cases hnull
    · omega
  · refine ⟨{ newThread 2 1 with state := .running }, rfl, rfl, ?_⟩
    refine ⟨fun _ i _ t ht hpid hstate => ?_, fun h => absurd rfl h, fun h => absurd rfl h,
      fun _ i _ t ht _ hw => (killTables_eq ht).2.1 hw.2.1⟩
    cases ((killTables_eq ht).2.2 hpid).symm.trans hstate

/-- A process that kills another one is ended, and the thread of the other one stays ready. -/
theorem kill_hits_caller : Holds killTables.processes 3 (fun p => p.state ≠ .notExist) ∧
    ¬ ∃ r s', sysKill killTables () 3 sigKill = some (r, s') ∧ KillsExactly killTables 3 s' := by
  have hrun : (sysKill killTables () 3 sigKill).map (fun rs =>
      ((rs.2.threads 1).map Thread.state, (rs.2.threads 2).map Thread.state)) =
      some (some .endedButNotCleaned, some .ready) := by
    decide +kernel
  refine ⟨by decide, ?_⟩
  rintro ⟨r, s', hkill, hexact⟩
  rw [hkill, map_some] at hrun
  obtain ⟨hcaller, -⟩ := Prod.mk.inj (some.inj hrun)
  obtain ⟨t', ht', hsame⟩ := hexact.otherThreads 1 (by decide) _ rfl (by decide)
  rw [ht', map_some, hsame] at hcaller
  cases hcaller

end CarrotOS.Sched
