import CarrotOS.Lib.Run
import CarrotOS.Sched.Signal

/-!
# Steps of the scheduler

The atomic steps of the cores: ticks, threads that mark themselves before they give up the core,
wake-ups, exits and signals. Each of them changes threads in a few ways only, and keeps a property
of one thread if each of these ways does. This is said once for every function, and every law about
threads follows from it.
-/

namespace CarrotOS.Sched

open Table Function List Option

variable {n pid r returnCode sig : ℕ} {clock : ℕ → Timeval}

variable {κ : Type} {s s' s1 : System κ} {a i : ℕ} {P : Thread → Prop}

theorem hasState_iff {state : ThreadState} :
    s.hasState i state = true ↔ Holds s.threads i fun t => t.state = state := by
  unfold System.hasState Holds
  cases s.threads i <;> simp

/-- Every core keeps its thread, and a property of a thread is kept under a condition. -/
structure Changes (s s' : System κ) (keeps : ℕ → (Thread → Prop) → Prop) : Prop where
  current : s'.current = s.current
  holds : ∀ a P, keeps a P → Holds s.threads a P → Holds s'.threads a P

namespace Changes

variable {keeps keeps' : ℕ → (Thread → Prop) → Prop}

theorem refl (s : System κ) : Changes s s keeps :=
  ⟨rfl, fun _ _ _ => id⟩

theorem trans (h : Changes s s1 keeps) (h' : Changes s1 s' keeps) : Changes s s' keeps :=
  ⟨h'.current.trans h.current, fun a P hk hP => h'.holds a P hk (h.holds a P hk hP)⟩

theorem mono (h : Changes s s' keeps) (hle : ∀ a P, keeps' a P → keeps a P) :
    Changes s s' keeps' :=
  ⟨h.current, fun a P hk => h.holds a P (hle a P hk)⟩

end Changes

/-! ## Ticks -/

/-- The changes that a tick on a core that runs `cur` can make to thread `a`. -/
structure TickKeeps (clock : ℕ → Timeval) (cur a : ℕ) (P : Thread → Prop) : Prop where
  wakes : ∀ t, P t → t.state = .blockedOther → laterOrSame (clock a) t.wakeupTime = true →
    P { t with state := .ready }
  runs : ∀ t, P t → t.state = .ready → P { t with state := .running }
  preempts : a = cur → ∀ t, P t → t.state = .running → P { t with state := .ready }
  ends : a = cur → ∀ t returnCode, P t → t.state = .endedButNotCleaned →
    P { t with state := .dead, returnCode := returnCode }

section Tick

variable {clock : ℕ → Timeval} {cur : ℕ}

theorem handleSleppingThread_changes (s : System κ) :
    Changes s (handleSleppingThread clock s) fun a P => TickKeeps clock cur a P := by
  refine ⟨rfl, fun a P hk hP => Holds.sweep hP ?_⟩
  intro t hPt hp
  obtain ⟨hstate, hlater⟩ := Bool.and_eq_true_iff.mp hp
  exact hk.wakes t hPt (eq_of_beq hstate) hlater

theorem ready_of_handleSleppingThread
    (h : Holds (handleSleppingThread clock s).threads a fun t => t.state = .ready) :
    Holds s.threads a fun t => t.state = .ready ∨
      t.state = .blockedOther ∧ laterOrSame (clock a) t.wakeupTime = true := by
  obtain ⟨t', ht', hready⟩ := h
  rw [handleSleppingThread, System.threads_sweep] at ht'
  obtain ⟨t, ht, rfl⟩ := sweep_eq_some.mp ht'
  refine ⟨t, ht, ?_⟩
  split_ifs at hready with hp
  · obtain ⟨hstate, hlater⟩ := Bool.and_eq_true_iff.mp hp.2
    exact .inr ⟨eq_of_beq hstate, hlater⟩
  · exact .inl hready

theorem nextReady_spec (h : 0 < nextReady s cur) :
    (Holds s.threads (nextReady s cur) fun t => t.state = .ready) ∧ nextReady s cur ≠ cur := by
  unfold nextReady at h ⊢
  generalize hfind : find? _ _ = found at h ⊢
  cases found with
  | none => exact absurd h (by simp)
  | some idx =>
    obtain ⟨hidx, hmem⟩ := find?_eq_some_iff_append.mp hfind
    have hmem : idx ∈ (range' 1 (maxThreadsCount - 1)).map
        fun i => (cur + i) % maxThreadsCount := mem_of_find?_eq_some hfind
    obtain ⟨i, hi, rfl⟩ := mem_map.mp hmem
    have hi := mem_range'_1.mp hi
    refine ⟨hasState_iff.mp (Bool.and_eq_true_iff.mp hidx).2, ?_⟩
    -- less than one round lies between the two
    simp only [getD_some]
    unfold maxThreadsCount at hi ⊢
    omega

theorem endCurrent_changes (h : endCurrent s cur = some s') :
    (Changes s s' fun a P => TickKeeps clock cur a P) ∧ ∀ a ≠ cur, s'.threads a = s.threads a := by
  unfold endCurrent at h
  split_ifs at h with hended
  · obtain ⟨t, ht, heq⟩ := bind_eq_some_iff.mp h
    cases heq
    refine ⟨⟨rfl, fun a P hk hP => Holds.modify hP ?_⟩, fun a ha => modify_of_ne ha⟩
    rintro rfl u hu hPu
    obtain ⟨t', ht', hstate⟩ := hasState_iff.mp hended
    cases hu.symm.trans ht'
    exact hk.ends rfl u _ hPu hstate
  · cases h
    exact ⟨.refl s, fun _ _ => rfl⟩

theorem preempt_changes (s : System κ) (cur : ℕ) :
    (Changes s (preempt s cur) fun a P => TickKeeps clock cur a P) ∧
      ∀ a ≠ cur, (preempt s cur).threads a = s.threads a := by
  unfold preempt
  split_ifs with hrunning
  · refine ⟨⟨rfl, fun a P hk hP => Holds.modify hP ?_⟩, fun a ha => modify_of_ne ha⟩
    rintro rfl u hu hPu
    obtain ⟨t', ht', hstate⟩ := hasState_iff.mp hrunning
    cases hu.symm.trans ht'
    exact hk.preempts rfl u hPu hstate
  · exact ⟨.refl s, fun _ _ => rfl⟩

variable [DecidableEq κ] {c : κ}

theorem runThread_spec (h : runThread s c n = some (r, s')) :
    s'.current = update s.current c n ∧
      (Holds s'.threads n fun t => t.state = .running) ∧
      ∀ a P, (a = n → ∀ t, s.threads a = some t → P t → P { t with state := .running }) →
        Holds s.threads a P → Holds s'.threads a P := by
  obtain ⟨t, ht, heq⟩ := bind_eq_some_iff.mp h
  cases heq
  refine ⟨?_, ?_, ?_⟩
  · change update s.current c t.tid = _
    rw [s.tid_eq n t ht]
  · exact ⟨_, modify_eq_some.mpr ⟨t, ht, rfl⟩, by simp⟩
  · intro a P hrun hP
    exact Holds.modify hP hrun

/-- What the three ticks do: threads change in the ways of a tick, the other cores keep theirs, and
the core goes idle, goes on, or runs a thread that was ready. -/
structure Ticked (clock : ℕ → Timeval) (s : System κ) (c : κ) (s' : System κ) : Prop where
  holds : ∀ a P, TickKeeps clock (s.current c) a P → Holds s.threads a P → Holds s'.threads a P
  current : ∀ c' ≠ c, s'.current c' = s.current c'
  next : s'.current c = 0 ∨
    (s'.current c = s.current c ∧ Holds s'.threads (s'.current c) fun t => t.state = .running) ∨
    ((Holds (handleSleppingThread clock s).threads (s'.current c) fun t => t.state = .ready) ∧
      Holds s'.threads (s'.current c) fun t => t.state = .running)

theorem ticked_idle (h : Changes s s1 fun a P => TickKeeps clock (s.current c) a P) :
    Ticked clock s c (s1.setCurrent c 0) where
  holds := h.holds
  current c' hc' := by
    change update s1.current c 0 c' = _
    rw [update_of_ne hc', h.current]
  next := .inl (update_self ..)

theorem ticked_run (h : runThread s1 c n = some (r, s'))
    (hchanges : Changes s s1 fun a P => TickKeeps clock (s.current c) a P)
    (hready : Holds (handleSleppingThread clock s).threads n fun t => t.state = .ready)
    (hsame : s1.threads n = (handleSleppingThread clock s).threads n) :
    Ticked clock s c s' := by
  obtain ⟨hcur, hrunning, hruns⟩ := runThread_spec h
  have hn : s'.current c = n := by rw [hcur, update_self]
  refine ⟨?_, ?_, .inr (.inr ?_)⟩
  · intro a P hk hP
    refine hruns a P ?_ (hchanges.holds a P hk hP)
    -- the thread that is found is ready when it is made to run
    rintro rfl t ht hPt
    obtain ⟨u, hu, hstate⟩ := hready
    cases ht.symm.trans (hsame.trans hu)
    exact hk.runs t hPt hstate
  · intro c' hc'
    rw [hcur, update_of_ne hc', hchanges.current]
  · rw [hn]
    exact ⟨hready, hrunning⟩

theorem timerTickFromIdle_spec (h : timerTickFromIdle clock s c = some (r, s')) :
    Ticked clock s c s' := by
  unfold timerTickFromIdle at h
  dsimp only at h
  split_ifs at h with hfound
  · exact ticked_run h (handleSleppingThread_changes s) (nextReady_spec hfound).1 rfl
  · cases h
    exact ticked_idle (handleSleppingThread_changes s)

theorem ticked_switch
    (hend : endCurrent (handleSleppingThread clock s) (s.current c) = some s1)
    (hfound : 0 < nextReady (handleSleppingThread clock s) (s.current c))
    (h : runThread (preempt s1 (s.current c)) c
      (nextReady (handleSleppingThread clock s) (s.current c)) = some (r, s')) :
    Ticked clock s c s' := by
  obtain ⟨hends, hsame⟩ := endCurrent_changes hend
  obtain ⟨hready, hne⟩ := nextReady_spec hfound
  obtain ⟨hpreempts, hsame'⟩ := preempt_changes s1 (s.current c)
  exact ticked_run h (((handleSleppingThread_changes s).trans hends).trans hpreempts) hready
    ((hsame' _ hne).trans (hsame _ hne))

theorem timerTickFromNonIdle_spec (h : timerTickFromNonIdle clock s c = some (r, s')) :
    Ticked clock s c s' := by
  obtain ⟨t, -, h⟩ := bind_eq_some_iff.mp h
  obtain ⟨s1, hend, h⟩ := bind_eq_some_iff.mp h
  have hchanges := (handleSleppingThread_changes s).trans (endCurrent_changes hend).1
  split_ifs at h with hfound hrunning
  · exact ticked_switch hend hfound h
  · cases h
    refine ⟨hchanges.holds, fun c' _ => congrFun hchanges.current c', .inr (.inl ?_)⟩
    rw [congrFun hchanges.current c]
    exact ⟨rfl, hasState_iff.mp hrunning⟩
  · cases h
    exact ticked_idle hchanges

theorem timerTick1_spec (h : timerTick1 clock s c = some (r, s')) :
    Ticked clock s c s' := by
  obtain ⟨t, -, h⟩ := bind_eq_some_iff.mp h
  obtain ⟨s1, hend, h⟩ := bind_eq_some_iff.mp h
  split_ifs at h with hfound
  · exact ticked_switch hend (Nat.zero_lt_of_lt hfound) h
  · cases h
    exact ticked_idle ((handleSleppingThread_changes s).trans (endCurrent_changes hend).1)

end Tick

/-! ## Exits -/

/-- The property is kept when a thread of a process that ends is marked. -/
def KeepsEnd (P : Thread → Prop) : Prop :=
  ∀ t, P t → t.state ≠ .endedButNotCleaned → P { t with state := .endedButNotCleaned }

/-- The property is kept when a thread that waits for a process is woken. -/
def KeepsPid (P : Thread → Prop) : Prop :=
  ∀ t, P t → t.state = .blockedPid → P { t with state := .ready, sleepFlagAddr := 0 }

/-- The property is kept when a thread of the process has to wait for the handler of a signal. -/
def KeepsWait (pid : ℕ) (P : Thread → Prop) : Prop :=
  ∀ t, P t → t.pid = pid → P { t with state := .waitingSignal }

section Exit

variable {c : κ}

theorem markProcessAsEnded_changes (h : markProcessAsEnded s c = some s') :
    Changes s s' fun _ P => KeepsEnd P := by
  obtain ⟨curr, -, h⟩ := bind_eq_some_iff.mp h
  obtain ⟨proc, -, h⟩ := bind_eq_some_iff.mp h
  cases h
  refine ⟨rfl, fun a P hk hP => Holds.sweep hP ?_⟩
  intro t hPt hp
  simp only [Bool.and_eq_true, bne_iff_ne] at hp
  exact hk t hPt hp.2

theorem markCurrentThreadAsEnded_changes (h : markCurrentThreadAsEnded s c returnCode = some s') :
    Changes s s' fun a P => (a = s.current c → ∀ t, P t →
      P { t with state := .endedButNotCleaned, returnCode := returnCode }) ∧ KeepsEnd P := by
  obtain ⟨curr, -, h⟩ := bind_eq_some_iff.mp h
  obtain ⟨proc, -, h⟩ := bind_eq_some_iff.mp h
  dsimp only at h
  split_ifs at h with hlast
  · have hends := markProcessAsEnded_changes h
    refine ⟨hends.current, fun a P hk hP => hends.holds a P hk.2 ?_⟩
    exact Holds.modify hP fun ha t _ => hk.1 ha t
  · cases h
    exact ⟨rfl, fun a P hk hP => Holds.modify hP fun ha t _ => hk.1 ha t⟩

theorem stopProcess_eq_some (h : stopProcess s pid = some s') : s' = s := by
  unfold stopProcess at h
  split_ifs at h
  exact (some.inj h).symm

theorem endProcess_changes (h : endProcess s pid returnCode = some s') :
    Changes s s' fun _ P => KeepsPid P := by
  obtain ⟨proc, -, h⟩ := bind_eq_some_iff.mp h
  obtain ⟨proc', -, h⟩ := bind_eq_some_iff.mp h
  cases h
  refine ⟨rfl, fun a P hk hP => Holds.sweep hP ?_⟩
  intro t hPt hp
  simp only [Bool.and_eq_true, beq_iff_eq] at hp
  exact hk t hPt hp.1.2

end Exit

/-! ## Signals -/

section Signal

variable {c : κ} {pid r : ℕ}

theorem registerHandler_changes (h : registerHandler s pid = some (r, s')) :
    Changes s s' fun _ _ => True := by
  obtain ⟨⟨tid, s1⟩, hreg, h⟩ := bind_eq_some_iff.mp h
  obtain ⟨tid', hfind, hreg⟩ := bind_eq_some_iff.mp hreg
  obtain ⟨rfl, rfl⟩ := Prod.mk.inj (some.inj hreg)
  obtain ⟨-, rfl⟩ := Prod.mk.inj (some.inj h)
  have hfree : s.threads tid' = none := by
    simpa using find?_some hfind
  refine ⟨rfl, fun a P _ hP => ?_⟩
  have hne : a ≠ tid' := by
    rintro rfl
    obtain ⟨t, ht, -⟩ := hP
    cases hfree.symm.trans ht
  exact Holds.modify (Holds.insert hP hfree) fun ha => absurd ha hne

theorem handleSignalProcess_changes (h : handleSignalProcess s pid = some (r, s')) :
    Changes s s' fun _ P =>
      (∀ p, s.processes pid = some p → p.state ≠ .handlingSignal → p.signal ≠ sigKill →
        p.signal ≠ sigStop → KeepsWait pid P) ∧ KeepsPid P := by
  obtain ⟨proc, hproc, h⟩ := bind_eq_some_iff.mp h
  split_ifs at h with hhandling hkill hstop
  · cases h
    exact Changes.refl s
  · obtain ⟨s1, hs1, heq⟩ := map_eq_some_iff.mp h
    cases heq
    exact (endProcess_changes hs1).mono fun _ _ hk => hk.2
  · obtain ⟨s1, hs1, heq⟩ := map_eq_some_iff.mp h
    obtain ⟨-, rfl⟩ := Prod.mk.inj heq
    obtain rfl := stopProcess_eq_some hs1
    exact Changes.refl s1
  · obtain ⟨⟨tid, s1⟩, hreg, h⟩ := bind_eq_some_iff.mp h
    cases h
    have hnew := registerHandler_changes hreg
    refine ⟨hnew.current, fun a P hk hP => Holds.sweep (hnew.holds a P trivial hP) ?_⟩
    intro t hPt hp
    simp only [Bool.and_eq_true, beq_iff_eq] at hp
    exact hk.1 proc hproc hhandling hkill hstop t hPt hp.1

theorem handleSignalThread_changes {tid : ℕ} (h : handleSignalThread s tid = some (r, s')) :
    Changes s s' fun _ P =>
      ∀ thread, s.threads tid = some thread → thread.signal ≠ 0 → KeepsWait thread.pid P := by
  obtain ⟨thread, hthread, h⟩ := bind_eq_some_iff.mp h
  split_ifs at h with hsignal
  · cases h
    exact Changes.refl s
  · obtain ⟨proc, -, h⟩ := bind_eq_some_iff.mp h
    obtain ⟨⟨handlerTid, s1⟩, hreg, h⟩ := bind_eq_some_iff.mp h
    obtain ⟨-, h⟩ := ite_none_right_eq_some.mp h
    cases h
    have hnew := registerHandler_changes hreg
    refine ⟨hnew.current, fun a P hk hP => Holds.sweep (hnew.holds a P trivial hP) ?_⟩
    intro t hPt hp
    exact hk thread hthread hsignal t hPt (eq_of_beq hp)

/-- The changes that a signal sent to a process can make to a thread. -/
structure SignalKeeps (pid sig : ℕ) (P : Thread → Prop) : Prop where
  marks : ∀ t, P t → P { t with signal := sig }
  waits : sig ≠ sigKill → sig ≠ sigStop → KeepsWait pid P
  wakes : KeepsPid P
  ends : sig = sigKill → KeepsEnd P
  blocks : ∀ t, P t → t.state = .ready → P { t with state := .blockedOther }

theorem sendSignalToProcess_changes (h : sendSignalToProcess s pid sig = some s') :
    Changes s s' fun _ P => SignalKeeps pid sig P := by
  unfold sendSignalToProcess at h
  obtain ⟨found, -, h⟩ := bind_eq_some_iff.mp h
  cases found with
  | none => exact (endProcess_changes h).mono fun _ _ hk => hk.wakes
  | some i =>
    obtain ⟨proc, -, h⟩ := bind_eq_some_iff.mp h
    obtain ⟨⟨r, s1⟩, hs1, h⟩ := bind_eq_some_iff.mp h
    cases h
    have hsignal := handleSignalProcess_changes hs1
    refine ⟨hsignal.current, fun a P hk hP => hsignal.holds a P ⟨?_, hk.wakes⟩
      (Holds.modify hP fun _ t _ hPt => hk.marks t hPt)⟩
    -- the process carries the signal that is sent
    intro p hp _ hkill hstop
    obtain ⟨q, -, rfl⟩ := modify_eq_some.mp hp
    rw [if_pos rfl] at hkill hstop
    exact hk.waits hkill hstop

theorem blockReady_changes (s : System κ) (pid sig : ℕ) :
    Changes s (blockReady s pid) fun _ P => SignalKeeps pid sig P := by
  refine ⟨rfl, fun a P hk hP => Holds.sweep hP ?_⟩
  intro t hPt hp
  simp only [Bool.and_eq_true, beq_iff_eq] at hp
  exact hk.blocks t hPt hp.2

theorem killSent_changes (h : killSent s c pid sig = some (r, s')) :
    Changes s s' fun _ P => SignalKeeps pid sig P := by
  unfold killSent at h
  split_ifs at h with hkill hstop hfull
  · obtain ⟨s1, hs1, heq⟩ := map_eq_some_iff.mp h
    cases heq
    exact (markProcessAsEnded_changes hs1).mono fun _ _ hk => hk.ends hkill
  · cases h
    exact blockReady_changes s pid sig
  · obtain ⟨proc, -, h⟩ := bind_eq_some_iff.mp h
    split_ifs at h with hhandling
    · cases h
      exact blockReady_changes s pid sig
    · obtain ⟨⟨r', s1⟩, hs1, h⟩ := bind_eq_some_iff.mp h
      cases h
      refine (blockReady_changes s pid sig).trans ((handleSignalProcess_changes hs1).mono ?_)
      exact fun _ _ hk => ⟨fun _ _ _ _ _ => hk.waits hkill hstop, hk.wakes⟩

theorem sysKill_changes (h : sysKill s c pid sig = some (r, s')) :
    Changes s s' fun _ P => SignalKeeps pid sig P := by
  have hsame : ∀ r', some (r', s) = some (r, s') →
      Changes s s' fun _ P => SignalKeeps pid sig P := by
    intro r' heq
    cases heq
    exact Changes.refl s
  unfold sysKill at h
  split_ifs at h with hsig
  · exact hsame _ h
  cases hproc : s.processes pid with
  | none =>
    rw [hproc] at h
    exact hsame _ h
  | some target =>
    rw [hproc] at h
    dsimp only at h
    split_ifs at h with hexists
    · exact hsame _ h
    · obtain ⟨s1, hsend, h⟩ := bind_eq_some_iff.mp h
      exact (sendSignalToProcess_changes hsend).trans (killSent_changes h)

/-- The changes that `sys_rt_sigreturn` can make to thread `a`. -/
structure SigreturnKeeps (s : System κ) (c : κ) (a : ℕ) (P : Thread → Prop) : Prop where
  marks : a = s.current c → ∀ t, P t →
    P { t with state := .endedButNotCleaned, returnCode := s.current c }
  ends : KeepsEnd P
  resumes : ∀ curr, s.threads (s.current c) = some curr → ∀ t, P t → t.pid = curr.pid →
    t.state = .waitingSignal → P { t with state := .ready }
  clears : a = s.current c → ∀ t, P t → P { t with signal := 0 }

theorem sysRtSigreturn_changes (h : sysRtSigreturn s c = some (r, s')) :
    Changes s s' fun a P => SigreturnKeeps s c a P := by
  obtain ⟨curr, hcurr, h⟩ := bind_eq_some_iff.mp h
  obtain ⟨s1, hmark, h⟩ := bind_eq_some_iff.mp h
  cases h
  have hmarked := markCurrentThreadAsEnded_changes hmark
  refine ⟨hmarked.current, fun a P hk hP => ?_⟩
  refine Holds.modify (Holds.sweep (hmarked.holds a P ⟨hk.marks, hk.ends⟩ hP) ?_)
    fun ha t _ hPt => hk.clears ha t hPt
  intro t hPt hp
  simp only [Bool.and_eq_true, beq_iff_eq] at hp
  exact hk.resumes curr hcurr t hPt hp.1 hp.2

end Signal

/-! ## Steps -/

/-- The atomic steps. A record of a process can be changed in any way by the rest of the
kernel. -/
inductive Step (κ : Type)
  | tick (c : κ) (clock : ℕ → Timeval)
  | yield (c : κ) (clock : ℕ → Timeval)
  | kernelThreadSleep (c : κ) (now : Timeval) (durationUs : ℕ)
  | sleepByResource (c : κ) (flagAddr : ℕ) (state : ThreadState)
  | wake (tid : ℕ)
  | markCurrentThreadAsEnded (c : κ) (returnCode : ℕ)
  | markProcessAsEnded (c : κ)
  | endThread (tid returnCode : ℕ)
  | handleSignalProcess (pid : ℕ)
  | handleSignalThread (tid : ℕ)
  | sysKill (c : κ) (pid sig : ℕ)
  | sysRtSigreturn (c : κ)
  | setProcess (pid : ℕ) (process : Option Process)

namespace Step

def apply [DecidableEq κ] (s : System κ) : Step κ → Option (System κ)
  | tick c clock => (tickInterruptHandler clock s c).map Prod.snd
  | yield c clock => (timerTick1 clock s c).map Prod.snd
  | kernelThreadSleep c now durationUs => Sched.kernelThreadSleep s c now durationUs
  | sleepByResource c flagAddr state => Sched.sleepByResource s c flagAddr state
  | wake tid => Sched.wake s tid
  | markCurrentThreadAsEnded c returnCode => Sched.markCurrentThreadAsEnded s c returnCode
  | markProcessAsEnded c => Sched.markProcessAsEnded s c
  | endThread tid returnCode => Sched.endThread s tid returnCode
  | handleSignalProcess pid => (Sched.handleSignalProcess s pid).map Prod.snd
  | handleSignalThread tid => (Sched.handleSignalThread s tid).map Prod.snd
  | sysKill c pid sig => (Sched.sysKill s c pid sig).map Prod.snd
  | sysRtSigreturn c => (Sched.sysRtSigreturn s c).map Prod.snd
  | setProcess pid process =>
    some { s with processes := update s.processes pid process }

/-- Every change that the step can make to thread `a` keeps the property. -/
def Keeps (s : System κ) (a : ℕ) (P : Thread → Prop) : Step κ → Prop
  | tick c clock | yield c clock => TickKeeps clock (s.current c) a P
  | kernelThreadSleep c _ _ => a = s.current c → ∀ t wakeupTime, P t →
    P { t with wakeupTime := wakeupTime, state := .blockedOther }
  | sleepByResource c flagAddr state => a = s.current c → ∀ t, P t →
    P { t with
      sleepFlagAddr := flagAddr
      state := if state = .notExist then .blockedOther else state }
  | wake tid => a = tid → ∀ t, P t → t.state.blocked = true → P { t with state := .ready }
  | markCurrentThreadAsEnded c returnCode =>
    (a = s.current c → ∀ t, P t →
      P { t with state := .endedButNotCleaned, returnCode := returnCode }) ∧ KeepsEnd P
  | markProcessAsEnded _ => KeepsEnd P
  | endThread tid _ => a = tid → ∀ t returnCode, P t →
    P { t with state := .dead, returnCode := returnCode }
  | handleSignalProcess pid =>
    (∀ p, s.processes pid = some p → p.state ≠ .handlingSignal → p.signal ≠ sigKill →
      p.signal ≠ sigStop → KeepsWait pid P) ∧ KeepsPid P
  | handleSignalThread tid =>
    ∀ thread, s.threads tid = some thread → thread.signal ≠ 0 → KeepsWait thread.pid P
  | sysKill _ pid sig => SignalKeeps pid sig P
  | sysRtSigreturn c => SigreturnKeeps s c a P
  | setProcess _ _ => True

variable [DecidableEq κ] {step : Step κ}

theorem ticked_of_tick {c : κ} (h : (tick c clock).apply s = some s') :
    Ticked clock s c s' := by
  obtain ⟨⟨r, s1⟩, htick, rfl⟩ := map_eq_some_iff.mp h
  unfold tickInterruptHandler at htick
  split_ifs at htick
  · exact timerTickFromIdle_spec htick
  · exact timerTickFromNonIdle_spec htick

theorem ticked_of_yield {c : κ} (h : (yield c clock).apply s = some s') :
    Ticked clock s c s' := by
  obtain ⟨⟨r, s1⟩, htick, rfl⟩ := map_eq_some_iff.mp h
  exact timerTick1_spec htick

/-- The steps other than ticks leave what the cores run, and make the changes listed for them. -/
theorem changes_of_apply (h : step.apply s = some s')
    (htick : ∀ c clock, step ≠ tick c clock ∧ step ≠ yield c clock) :
    Changes s s' fun a P => step.Keeps s a P := by
  cases step with
  | tick c clock => exact absurd rfl (htick c clock).1
  | yield c clock => exact absurd rfl (htick c clock).2
  | kernelThreadSleep c now durationUs =>
    obtain ⟨t, -, h⟩ := bind_eq_some_iff.mp h
    cases h
    exact ⟨rfl, fun a P hk hP => Holds.modify hP fun ha t _ hPt => hk ha t _ hPt⟩
  | sleepByResource c flagAddr state =>
    obtain ⟨t, -, h⟩ := bind_eq_some_iff.mp h
    cases h
    exact ⟨rfl, fun a P hk hP => Holds.modify hP fun ha t _ hPt => hk ha t hPt⟩
  | wake tid =>
    obtain ⟨t, ht, h⟩ := bind_eq_some_iff.mp h
    split_ifs at h with hblocked
    · cases h
      refine ⟨rfl, fun a P hk hP => Holds.modify hP ?_⟩
      rintro rfl u hu hPu
      obtain rfl := some.inj (hu.symm.trans ht)
      exact hk rfl u hPu hblocked
    · cases h
      exact Changes.refl s
  | markCurrentThreadAsEnded c returnCode => exact markCurrentThreadAsEnded_changes h
  | markProcessAsEnded c => exact markProcessAsEnded_changes h
  | endThread tid returnCode =>
    obtain ⟨t, -, h⟩ := bind_eq_some_iff.mp h
    cases h
    exact ⟨rfl, fun a P hk hP => Holds.modify hP fun ha t _ hPt => hk ha t _ hPt⟩
  | handleSignalProcess pid =>
    obtain ⟨⟨r, s1⟩, hs, rfl⟩ := map_eq_some_iff.mp h
    exact handleSignalProcess_changes hs
  | handleSignalThread tid =>
    obtain ⟨⟨r, s1⟩, hs, rfl⟩ := map_eq_some_iff.mp h
    exact handleSignalThread_changes hs
  | sysKill c pid sig =>
    obtain ⟨⟨r, s1⟩, hs, rfl⟩ := map_eq_some_iff.mp h
    exact sysKill_changes hs
  | sysRtSigreturn c =>
    obtain ⟨⟨r, s1⟩, hs, rfl⟩ := map_eq_some_iff.mp h
    exact sysRtSigreturn_changes hs
  | setProcess pid process =>
    cases h
    exact ⟨rfl, fun _ _ _ => id⟩

/-- **One step** keeps a property of a thread that its changes keep. -/
theorem holds_of_keeps (h : step.apply s = some s') (hk : step.Keeps s a P)
    (hP : Holds s.threads a P) : Holds s'.threads a P := by
  cases step with
  | tick c clock => exact (ticked_of_tick h).holds a P hk hP
  | yield c clock => exact (ticked_of_yield h).holds a P hk hP
  | _ => exact (changes_of_apply h (fun _ _ => by simp)).holds a P hk hP

end Step

end CarrotOS.Sched
