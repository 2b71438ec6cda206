import CarrotOS.Lib.Run
import CarrotOS.Sched.Live
import CarrotOS.Sched.Tables

/-!
# The count of threads

`threads_count` should be the number of threads of a process that have not ended, and the process
should end with the last of them. Exits keep to this. The calls that make a thread do not:
`register_a_thread` adds 1 to another entry of the process table instead, and `sys_clone` adds
nothing. So the counts are exact in a run exactly as long as no call makes a thread and no thread
exits twice.
-/

namespace CarrotOS.Sched

open Word Table Transition Function Option

/-! ## Calls -/

/-- The calls, with the thread that makes them and the addresses of the blocks they are given. -/
inductive Call where
  | runElfProcess (caller : ℕ) (isFork : Bool) (processAddr cr3 threadAddr : ℕ)
    (loading : Loading)
  | registerAThread (pid threadAddr : ℕ)
  | sysClone (caller flags childAddr : ℕ)
  | sysExit (caller status : ℕ)

variable {k k' : Kernel} {s s' : System Unit} {call : Call}
  {pid caller status tid : ℕ}

namespace Call

def apply (k : Kernel) : Call → Option Kernel
  | runElfProcess caller isFork processAddr cr3 threadAddr loading =>
    (k.runElfProcess caller isFork processAddr cr3 threadAddr loading).map Prod.snd
  | registerAThread pid threadAddr => (k.registerAThread pid threadAddr).map Prod.snd
  | sysClone caller flags childAddr => (k.sysClone caller flags childAddr).map Prod.snd
  | sysExit caller status => k.sysExit caller status

/-- The process that a call is about. -/
def Concerns (k : Kernel) : Call → ℕ → Prop
  | runElfProcess caller isFork _ _ _ _, pid =>
    if isFork then Holds k.thread caller fun t => t.pid = pid
    else getAFreeSlot k.words 0 maxProcessesCount = some pid
  | registerAThread q _, pid => pid = q
  | sysClone caller _ _, pid | sysExit caller _, pid => Holds k.thread caller fun t => t.pid = pid

end Call

/-- The address of a block that no record of a thread stands in. -/
def Kernel.FreshThread (k : Kernel) (addr : ℕ) : Prop :=
  addr ≠ 0 ∧ ∀ i < maxThreadsCount, k.threadPtrs i ≠ addr

/-- The address of a block that no record of a process stands in. -/
def Kernel.FreshProcess (k : Kernel) (addr : ℕ) : Prop :=
  addr ≠ 0 ∧ ∀ pid < maxProcessesCount, k.words pid ≠ addr

def Kernel.HasThreadSlot (k : Kernel) : Prop :=
  ∃ i, 2 ≤ i ∧ i < maxThreadsCount ∧ k.threadPtrs i = 0

def Kernel.HasProcessSlot (k : Kernel) : Prop :=
  ∃ pid, 0 ≤ pid ∧ pid < maxProcessesCount ∧ k.words pid = 0

namespace Call

/-- The call is made by a thread of the table and for a process of the table, the tables are not
full, and the blocks given to it are not in use. -/
def Fits (k : Kernel) : Call → Prop
  | runElfProcess caller _ processAddr _ threadAddr _ =>
    caller < maxThreadsCount ∧ k.FreshProcess processAddr ∧ k.FreshThread threadAddr ∧
      k.HasProcessSlot ∧ k.HasThreadSlot
  | registerAThread pid threadAddr =>
    pid < maxProcessesCount ∧ k.words pid ≠ 0 ∧ k.FreshThread threadAddr ∧ k.HasThreadSlot
  | sysClone caller _ childAddr =>
    caller < maxThreadsCount ∧ k.FreshThread childAddr ∧ k.HasThreadSlot
  | sysExit caller _ => caller < maxThreadsCount

/-- The call makes no thread, and it is not the second exit of a thread. -/
def Harmless (k : Kernel) : Call → Prop
  | runElfProcess _ _ _ _ _ loading => loading ≠ .loaded
  | registerAThread _ _ => False
  | sysClone caller flags _ => flags &&& cloneThread = 0 ∨
    Holds k.thread caller fun t => Holds k.process t.pid fun p => p.state = .endedButNotCleaned
  | sysExit caller _ => Holds k.thread caller fun t => ¬ t.Gone

end Call

/-! ## What the calls should do -/

/-- Every count is the number of threads of the process that have not ended. -/
def Kernel.Exact (k : Kernel) : Prop :=
  ∀ pid < maxProcessesCount, ∀ p, k.process pid = some p →
    p.threadsCount = liveThreads k.thread pid

/-- The counts are exact afterwards, only the entry of the process that the call is about changes,
and an exit takes 1 off a count that is not 0 and marks the process exactly when the thread was the
last one. -/
structure Counts (k : Kernel) (call : Call) (k' : Kernel) : Prop where
  exact : k'.Exact
  frame : ∀ q < maxProcessesCount, ¬ call.Concerns k q →
    k'.words q = k.words q ∧ k'.process q = k.process q
  exit : ∀ caller status t p p', call = .sysExit caller status → k.thread caller = some t →
    k.process t.pid = some p → k'.process t.pid = some p' →
    0 < p.threadsCount ∧
      (p'.state = .endedButNotCleaned ↔ ¬ t.Gone ∧ liveThreads k.thread t.pid = 1)

/-- Intact tables with exact counts. -/
def Kernel.Sound (k : Kernel) : Prop :=
  ∃ s, Intact k s ∧ Counted s.threads s.processes

theorem Intact.liveThreads_eq (h : Intact k s) :
    liveThreads k.thread pid = liveThreads s.threads pid :=
  liveThreads_congr h.thread

theorem Intact.exact (h : Intact k s) (hs : Counted s.threads s.processes) : k.Exact := by
  intro pid hpid p hp
  rw [h.liveThreads_eq]
  exact hs.count pid p ((h.process pid hpid).symm.trans hp)

theorem Kernel.Sound.exact (h : k.Sound) : k.Exact := by
  obtain ⟨s, hk, hs⟩ := h
  exact hk.exact hs

theorem counts_refl (h : k.Sound) (hexit : ∀ caller status, call ≠ .sysExit caller status) :
    Counts k call k :=
  ⟨h.exact, fun _ _ _ => ⟨rfl, rfl⟩, fun _ _ _ _ _ heq => absurd heq (hexit _ _)⟩

/-! ## Harmless calls -/

theorem Intact.liveThreads_of_free (h : Intact k s) (hfree : k.words pid = 0) :
    liveThreads s.threads pid = 0 := by
  refine Finset.card_eq_zero.mpr (Finset.eq_empty_of_forall_notMem fun i hi => ?_)
  obtain ⟨hlt, t, ht, rfl, -⟩ := mem_liveSet.mp hi
  exact (h.pid_lt i hlt t ht).2 hfree

/-- What the first part of `run_elf_process` leaves: a process in sound tables, and everything
else as it was. -/
structure Prepared (k : Kernel) (pid : ℕ) (k' : Kernel) : Prop where
  sound : k'.Sound
  pid_lt : pid < maxProcessesCount
  ne_zero : k'.words pid ≠ 0
  threadPtrs : k'.threadPtrs = k.threadPtrs
  frame : ∀ q < maxProcessesCount, q ≠ pid →
    k'.words q = k.words q ∧ k'.process q = k.process q

theorem Prepared.setCr3 (h : Prepared k pid k') (cr3 : ℕ) :
    Prepared k pid (k'.setWord (processesCr3Ptr + pid) cr3) := by
  obtain ⟨⟨s, hi, hs⟩, hpid, hnull, hptrs, hframe⟩ := h
  have hge : maxProcessesCount ≤ processesCr3Ptr + pid := by
    unfold processesCr3Ptr maxProcessesCount
    omega
  have hlt : processesCr3Ptr + pid < threadsInfoPtr := by
    unfold processesCr3Ptr threadsInfoPtr maxProcessesCount at *
    omega
  have hword : ∀ q < maxProcessesCount,
      (k'.setWord (processesCr3Ptr + pid) cr3).words q = k'.words q :=
    fun q hq => update_of_ne (by omega) _ _
  refine ⟨⟨s, hi.setWord hge hlt, hs⟩, hpid, ?_, ?_, ?_⟩
  · rw [hword pid hpid]
    exact hnull
  · rw [← hptrs]
    funext i
    exact update_of_ne (by omega) _ _
  · intro q hq hne
    obtain ⟨hwords, hprocess⟩ := hframe q hq hne
    refine ⟨(hword q hq).trans hwords, ?_⟩
    rw [← hprocess, Kernel.process, deref, hword q hq]
    rfl

/-- A new process. -/
theorem Prepared.setupProcessInfo {processAddr : ℕ} (h : k.Sound)
    (hfresh : k.FreshProcess processAddr) (hpid : pid < maxProcessesCount)
    (hfree : k.words pid = 0) : Prepared k pid (k.setupProcessInfo pid pid processAddr) := by
  obtain ⟨s, hi, hs⟩ := h
  refine ⟨⟨_, hi.setupProcessInfo hpid pid hfresh.1 hfresh.2, ?_⟩, hpid, ?_, ?_, ?_⟩
  · have hnone := hi.liveThreads_of_free hfree
    constructor
    · intro q p hp
      change update s.processes pid _ q = some p at hp
      by_cases hq : q = pid
      · subst hq
        rw [update_self] at hp
        cases hp
        exact hnone.symm
      · rw [update_of_ne hq] at hp
        exact hs.count q p hp
    · intro q p hp hended
      change update s.processes pid _ q = some p at hp
      by_cases hq : q = pid
      · subst hq
        exact hnone
      · rw [update_of_ne hq] at hp
        exact hs.ended q p hp hended
  · change update k.words pid processAddr pid ≠ 0
    rw [update_self]
    exact hfresh.1
  · funext i
    refine update_of_ne ?_ _ _
    unfold threadsInfoPtr maxProcessesCount at *
    omega
  · intro q hq hne
    have hword : update k.words pid processAddr q = k.words q :=
      update_of_ne hne _ _
    refine ⟨hword, ?_⟩
    change deref (update k.words pid processAddr) (update _ _ _) q = _
    rw [deref_insert hfresh.2 hfresh.1 hq, update_of_ne hne]
    rfl

/-- The first part of `run_elf_process`. -/
theorem prepareProcess_spec {processAddr cr3 : ℕ} {isFork : Bool} (h : k.Sound)
    (hcaller : caller < maxThreadsCount) (hfresh : k.FreshProcess processAddr)
    (hslot : k.HasProcessSlot)
    (hk : k.prepareProcess caller isFork processAddr cr3 = some (pid, k')) :
    Prepared k pid k' ∧ ∀ threadAddr loading q,
      (Call.runElfProcess caller isFork processAddr cr3 threadAddr loading).Concerns k q ↔
        q = pid := by
  cases isFork with
  | true =>
    obtain ⟨curr, hcurr, hk⟩ := bind_eq_some_iff.mp hk
    cases hk
    constructor
    · obtain ⟨s, hi, hs⟩ := h
      have hlt := hi.pid_lt caller hcaller curr ((hi.thread caller hcaller).symm.trans hcurr)
      have hsame : Prepared k curr.pid k :=
        ⟨⟨s, hi, hs⟩, hlt.1, hlt.2, rfl, fun _ _ _ => ⟨rfl, rfl⟩⟩
      exact hsame.setCr3 cr3
    · intro _ _ q
      constructor
      · rintro ⟨t, ht, rfl⟩
        rw [some.inj (ht.symm.trans hcurr)]
      · rintro rfl
        exact ⟨curr, hcurr, rfl⟩
  | false =>
    obtain ⟨pid', hfree, hk⟩ := bind_eq_some_iff.mp hk
    cases hk
    constructor
    · exact (Prepared.setupProcessInfo h hfresh (getAFreeSlot_lt hfree hslot)
        (getAFreeSlot_spec hfree).1).setCr3 cr3
    · intro _ _ q
      change getAFreeSlot k.words 0 maxProcessesCount = some q ↔ _
      rw [hfree, some.injEq, eq_comm]

theorem sysExit_words (hk : k.sysExit caller status = some k') :
    k'.words = k.words := by
  simp only [Kernel.sysExit, bind_eq_bind, bind_eq_some_iff] at hk
  obtain ⟨curr, -, proc, -, hk⟩ := hk
  split_ifs at hk with hlast
  · simp only [Kernel.markProcessAsEnded, bind_eq_bind, bind_eq_some_iff,
      ite_none_right_eq_some, some.injEq] at hk
    obtain ⟨_, -, _, -, -, rfl⟩ := hk
    rfl
  · cases hk
    rfl

/-- An exit, on sound tables and on the tables they make up. -/
structure Exits (k : Kernel) (caller status : ℕ) (k' : Kernel) (s : System Unit) (t : Thread)
    (p : Process) (s' : System Unit) : Prop where
  intact : Intact k s
  counted : Counted s.threads s.processes
  current : s.current () = caller
  thread : s.threads (s.current ()) = some t
  process : s.processes t.pid = some p
  pid_lt : t.pid < maxProcessesCount
  ends : markCurrentThreadAsEnded s () status = some s'
  intact' : Intact k' s'

theorem exits_of_sysExit (h : k.Sound) (hcaller : caller < maxThreadsCount)
    (hk : k.sysExit caller status = some k') : ∃ s t p s', Exits k caller status k' s t p s' := by
  obtain ⟨s, hi, hs⟩ := h
  have hi' : Intact k (s.setCurrent () caller) :=
    ⟨hi.thread, hi.process, hi.process_none, hi.thread_isSome, hi.process_isSome,
      hi.threads_separate, hi.processes_separate, hi.pid_lt⟩
  obtain ⟨s', hends, hi''⟩ := hi'.sysExit hcaller rfl hk
  simp only [Kernel.sysExit, bind_eq_bind, bind_eq_some_iff] at hk
  obtain ⟨t, ht, p, hp, -⟩ := hk
  rw [hi.thread caller hcaller] at ht
  have hpid := (hi.pid_lt caller hcaller t ht).1
  have hp : s.processes t.pid = some p := (hi.process _ hpid).symm.trans hp
  exact ⟨_, t, p, s', hi', hs, rfl, ht, hp, hpid, hends, hi''⟩

theorem counts_of_exit (h : k.Sound) (hcaller : caller < maxThreadsCount)
    (hlive : Holds k.thread caller fun t => ¬ t.Gone) (hk : k.sysExit caller status = some k') :
    k'.Sound ∧ Counts k (.sysExit caller status) k' := by
  obtain ⟨s, t, p, s', hi, hs, rfl, ht, hp, hpid, hends, hi'⟩ := exits_of_sysExit h hcaller hk
  obtain ⟨t', ht', hlive⟩ := hlive
  have hthread : k.thread (s.current ()) = some t := (hi.thread _ hcaller).trans ht
  obtain rfl := some.inj (ht'.symm.trans hthread)
  obtain ⟨hs', hpos, hlast⟩ := hs.exit ht hcaller hlive hp hends
  refine ⟨⟨s', hi', hs'⟩, hi'.exact hs', ?_, ?_⟩
  · intro q hq hne
    have hne : q ≠ t'.pid := by
      rintro rfl
      exact hne ⟨t', hthread, rfl⟩
    refine ⟨congrFun (sysExit_words hk) q, ?_⟩
    rw [hi'.process q hq, hi.process q hq]
    exact (markCurrentThreadAsEnded_exited ht hp hends).frame q hne
  · intro _ _ t'' p0 p' heq ht'' hp0 hp'
    obtain ⟨rfl, -⟩ := Call.sysExit.inj heq
    cases ht''.symm.trans hthread
    rw [hi.process _ hpid] at hp0
    rw [hi'.process _ hpid] at hp'
    obtain rfl := some.inj (hp0.symm.trans hp)
    rw [hi.liveThreads_eq]
    exact ⟨hpos, (hlast p' hp').trans (by simp [hlive])⟩

theorem sysClone_cases {flags childAddr r : ℕ}
    (hk : k.sysClone caller flags childAddr = some (r, k')) :
    Call.Harmless k (.sysClone caller flags childAddr) ∧ k' = k ∨
      ∃ t p tid, k.thread caller = some t ∧ k.process t.pid = some p ∧
        p.state ≠ .endedButNotCleaned ∧ flags &&& cloneThread ≠ 0 ∧
        getAFreeSlot k.threadPtrs 1 maxThreadsCount = some tid ∧
        k' = k.insertThread tid childAddr { t with state := .ready, tid := tid } := by
  unfold Kernel.sysClone at hk
  split_ifs at hk with hflags
  · cases hk
    exact .inl ⟨.inl hflags, rfl⟩
  · obtain ⟨t, ht, hk⟩ := bind_eq_some_iff.mp hk
    obtain ⟨p, hp, hk⟩ := bind_eq_some_iff.mp hk
    split_ifs at hk with hended
    · cases hk
      exact .inl ⟨.inr ⟨t, ht, p, hp, hended⟩, rfl⟩
    · obtain ⟨tid, htid, hk⟩ := bind_eq_some_iff.mp hk
      obtain ⟨-, rfl⟩ := Prod.mk.inj (some.inj hk)
      exact .inr ⟨t, p, tid, ht, hp, hended, hflags, htid, rfl⟩

/-- **One harmless call** keeps the tables sound and does what it should. -/
theorem sound_of_apply (h : k.Sound) (hfits : call.Fits k) (hharmless : call.Harmless k)
    (hk : call.apply k = some k') : k'.Sound ∧ Counts k call k' := by
  cases call with
  | runElfProcess caller isFork processAddr cr3 threadAddr loading =>
    obtain ⟨hcaller, hprocess, -, hslot, -⟩ := hfits
    obtain ⟨⟨r, k1⟩, hrun, rfl⟩ := map_eq_some_iff.mp hk
    cases loading with
    | refused r' =>
      cases hrun
      exact ⟨h, counts_refl h (by simp)⟩
    | broken r' =>
      obtain ⟨⟨pid, k2⟩, hprepare, hrun⟩ := bind_eq_some_iff.mp hrun
      cases hrun
      obtain ⟨hprepared, hconcerns⟩ := prepareProcess_spec h hcaller hprocess hslot hprepare
      refine ⟨hprepared.sound, hprepared.sound.exact, ?_, by simp⟩
      exact fun q hq hne => hprepared.frame q hq fun heq => hne ((hconcerns _ _ q).mpr heq)
    | loaded => exact absurd rfl hharmless
  | registerAThread pid threadAddr => exact hharmless.elim
  | sysClone caller flags childAddr =>
    obtain ⟨⟨r, k1⟩, hclone, rfl⟩ := map_eq_some_iff.mp hk
    rcases sysClone_cases hclone with ⟨-, rfl⟩ | ⟨t, p, tid, ht, hp, hended, hflags, -⟩
    · exact ⟨h, counts_refl h (by simp)⟩
    · obtain ⟨t', ht', p', hp', hended'⟩ := hharmless.resolve_left hflags
      cases ht'.symm.trans ht
      cases hp'.symm.trans hp
      exact absurd hended' hended
  | sysExit caller status => exact counts_of_exit h hfits hharmless hk

/-! ## Calls that make a thread -/

theorem not_exact_of_insert {t : Thread} {p : Process} (h : k.Exact)
    (hpid : t.pid < maxProcessesCount) (htid : tid < maxThreadsCount)
    (hfree : k.thread tid = none) (hlive : ¬ t.Gone)
    (hthread : ∀ i < maxThreadsCount, k'.thread i = update k.thread tid (some t) i)
    (hp : k.process t.pid = some p) {p' : Process} (hp' : k'.process t.pid = some p')
    (hcount : p'.threadsCount = p.threadsCount) : ¬ k'.Exact := by
  intro h'
  have hlives := liveThreads_insert htid hfree hlive
  have hcount' := h' _ hpid p' hp'
  rw [liveThreads_congr hthread, hlives, hcount, h _ hpid p hp] at hcount'
  exact absurd hcount' (Nat.ne_of_lt (Nat.lt_succ_self _))

theorem Kernel.thread_of_null {i : ℕ} (hnull : k.threadPtrs i = 0) : k.thread i = none := by
  rw [Kernel.thread, deref, if_pos hnull]

theorem Kernel.Sound.process_of_ne_zero (h : k.Sound) (hpid : pid < maxProcessesCount)
    (hnull : k.words pid ≠ 0) : ∃ p, k.process pid = some p := by
  obtain ⟨s, hi, -⟩ := h
  rw [hi.process pid hpid]
  exact isSome_iff_exists.mp (hi.process_isSome pid hpid hnull)

theorem threadPtrs_insertThread {addr : ℕ} {t : Thread} :
    (k.insertThread tid addr t).threadPtrs = update k.threadPtrs tid addr := by
  funext j
  change update k.words (threadsInfoPtr + tid) addr (threadsInfoPtr + j) = _
  by_cases hj : j = tid
  · subst hj
    rw [update_self, update_self]
  · rw [update_of_ne (by omega), update_of_ne hj]
    rfl

theorem thread_insertThread {addr i : ℕ} {t : Thread} (hfresh : k.FreshThread addr)
    (hi : i < maxThreadsCount) :
    (k.insertThread tid addr t).thread i = update k.thread tid (some t) i := by
  rw [Kernel.thread, threadPtrs_insertThread]
  exact deref_insert hfresh.2 hfresh.1 hi

theorem thread_setWord {i j w : ℕ} (hi : i < maxThreadsCount)
    (hj : j < threadsInfoPtr ∨ threadsInfoPtr + maxThreadsCount ≤ j) :
    (k.setWord j w).threadPtrs i = k.threadPtrs i ∧ (k.setWord j w).thread i = k.thread i := by
  have hptr : (k.setWord j w).threadPtrs i = k.threadPtrs i :=
    update_of_ne (by omega) _ _
  refine ⟨hptr, ?_⟩
  rw [Kernel.thread, deref, hptr]
  rfl

structure Registered (k : Kernel) (pid tid : ℕ) (k' : Kernel) : Prop where
  tid_lt : tid < maxThreadsCount
  free : k.thread tid = none
  thread : ∀ i < maxThreadsCount,
    k'.thread i = update k.thread tid (some (newThread pid tid)) i
  separate : Separate maxThreadsCount k.threadPtrs → Separate maxThreadsCount k'.threadPtrs
  word : k'.words (pid + 4) = u64 (k.words (pid + 4) + 1)
  words : ∀ j < threadsInfoPtr, j ≠ pid + 4 → k'.words j = k.words j
  processRecords : k'.processRecords = k.processRecords

theorem registerAThread_spec {threadAddr : ℕ} (hpid : pid < maxProcessesCount)
    (hfresh : k.FreshThread threadAddr) (hslot : k.HasThreadSlot)
    (hk : k.registerAThread pid threadAddr = some (tid, k')) : Registered k pid tid k' := by
  obtain ⟨tid', hfree, hk⟩ := bind_eq_some_iff.mp hk
  obtain ⟨rfl, rfl⟩ := Prod.mk.inj (some.inj hk)
  have hlt : pid + 4 < threadsInfoPtr := by
    unfold threadsInfoPtr maxProcessesCount at *
    omega
  have hword : ∀ j < threadsInfoPtr, update k.words (threadsInfoPtr + tid')
      threadAddr j = k.words j := fun j hj => update_of_ne (by omega) _ _
  refine ⟨getAFreeSlot_lt hfree hslot, Kernel.thread_of_null (getAFreeSlot_spec hfree).1, ?_, ?_,
    ?_, ?_, rfl⟩
  · intro i hi
    rw [(thread_setWord hi (.inl hlt)).2]
    exact thread_insertThread hfresh hi
  · intro hsep
    have hsep := hsep.insert (i := tid') hfresh.2
    intro i hi j hj
    rw [(thread_setWord hi (.inl hlt)).1, (thread_setWord hj (.inl hlt)).1,
      threadPtrs_insertThread]
    exact hsep i hi j hj
  · rw [← hword _ hlt]
    exact update_self ..
  · intro j hj hne
    change update (update k.words _ _) (pid + 4) _ j = _
    rw [update_of_ne hne, hword j hj]

/-- **`register_a_thread`** of the scheduler makes the same table of threads from intact tables. -/
theorem Intact.registerAThread {s : System Unit} {threadAddr : ℕ} (h : Intact k s)
    (hpid : pid < maxProcessesCount) (hfresh : k.FreshThread threadAddr) (hslot : k.HasThreadSlot)
    (hk : k.registerAThread pid threadAddr = some (tid, k')) :
    ∃ s', Sched.registerAThread s pid = some (tid, s') ∧
      ∀ i < maxThreadsCount, k'.thread i = s'.threads i := by
  have hreg := registerAThread_spec hpid hfresh hslot hk
  obtain ⟨_, hfree, hk⟩ := bind_eq_some_iff.mp hk
  obtain ⟨rfl, -⟩ := Prod.mk.inj (some.inj hk)
  obtain ⟨-, hle, -, hfirst⟩ := getAFreeSlot_spec hfree
  have hlt := hreg.tid_lt
  refine ⟨_, bind_eq_some_iff.mpr ⟨_, List.find?_range'_eq_some.mpr ⟨?_, ?_, ?_⟩, rfl⟩, ?_⟩
  · rw [← h.thread _ hlt, hreg.free]
    rfl
  · exact List.mem_range'_1.mpr ⟨hle, by omega⟩
  · intro j hj hjt
    simp [h.thread_isSome j (hjt.trans hlt) (hfirst j hj hjt)]
  · intro i hi
    rw [hreg.thread i hi, update_apply, h.thread i hi]
    exact (update_apply ..).symm

theorem Registered.process (h : Registered k pid tid k')
    (hpid : pid < maxProcessesCount) : k'.process pid = k.process pid := by
  have hlt : pid < threadsInfoPtr := by
    unfold threadsInfoPtr maxProcessesCount at *
    omega
  rw [Kernel.process, deref, h.words pid hlt (by omega), h.processRecords]
  rfl

theorem u64_succ_ne (w : ℕ) : u64 (w + 1) ≠ w := by
  unfold u64
  intro heq
  omega

/-- The last part of `run_elf_process`: the thread is made ready, and the count of the process is
not touched. -/
theorem not_exact_of_ready {k1 : Kernel} (h : k.Sound) (hpid : pid < maxProcessesCount)
    (hnull : k.words pid ≠ 0) (hreg : Registered k pid tid k1) {k2 : Kernel}
    (hptrs : ∀ i < maxThreadsCount, k2.threadPtrs i = k1.threadPtrs i)
    (hthreads : ∀ i < maxThreadsCount, k2.thread i = k1.thread i)
    (hprocess : k2.process pid = k1.process pid) :
    ¬ ((k2.modifyProcess pid fun p => { p with signal := 0 }).modifyThread tid fun t =>
      { t with state := .ready }).Exact := by
  obtain ⟨p, hp⟩ := h.process_of_ne_zero hpid hnull
  obtain ⟨s, hi, -⟩ := id h
  have hsep : Separate maxThreadsCount k2.threadPtrs := by
    intro i hi' j hj
    rw [hptrs i hi', hptrs j hj]
    exact hreg.separate hi.threads_separate i hi' j hj
  have hlive : ¬ ({ newThread pid tid with state := .ready } : Thread).Gone := by
    simp [Thread.Gone]
  have hthread' : ∀ i < maxThreadsCount, deref k2.threadPtrs (modify k2.threadRecords
      (k2.threadPtrs tid) fun t => { t with state := .ready }) i =
        update k.thread tid (some { newThread pid tid with state := .ready }) i := by
    intro i hi'
    rw [deref_modify hsep hreg.tid_lt hi']
    change modify k2.thread tid _ i = _
    by_cases heq : i = tid
    · subst heq
      rw [modify_self, hthreads i hi', hreg.thread i hi', update_self,
        update_self]
      rfl
    · rw [modify_of_ne heq, hthreads i hi', hreg.thread i hi', update_of_ne heq,
        update_of_ne heq]
  have hprocess' : deref k2.words (modify k2.processRecords (k2.words pid) fun p =>
      { p with signal := 0 }) pid = some { p with signal := 0 } := by
    rw [deref_modify_self]
    change (k2.process pid).map _ = _
    rw [hprocess, hreg.process hpid, hp]
    rfl
  exact not_exact_of_insert (t := { newThread pid tid with state := .ready }) h.exact hpid
    hreg.tid_lt hreg.free hlive hthread' hp hprocess' rfl

/-- A process that is started: its count is wrong, or the fourth entry behind it has changed. -/
theorem not_exact_of_start {threadAddr r : ℕ} (h : k.Sound) (hpid : pid < maxProcessesCount)
    (hnull : k.words pid ≠ 0) (hfresh : k.FreshThread threadAddr) (hslot : k.HasThreadSlot)
    (hk : k.startProcess pid threadAddr = some (r, k')) :
    ¬ k'.Exact ∨ pid + 4 < maxProcessesCount ∧ k'.words (pid + 4) ≠ k.words (pid + 4) := by
  obtain ⟨⟨tid, k1⟩, hreg, hk⟩ := bind_eq_some_iff.mp hk
  have hreg := registerAThread_spec hpid hfresh hslot hreg
  obtain ⟨p, -, hk⟩ := bind_eq_some_iff.mp hk
  obtain ⟨t, -, hk⟩ := bind_eq_some_iff.mp hk
  cases hk
  by_cases hlt : pid + 4 < maxProcessesCount
  · refine .inr ⟨hlt, ?_⟩
    -- neither of the two writes that follow goes to this entry
    have hword : k1.words (pid + 4) ≠ k.words (pid + 4) := by
      rw [hreg.word]
      exact u64_succ_ne _
    change update (update k1.words _ _) _ _ (pid + 4) ≠ _
    rw [update_of_ne, update_of_ne]
    · exact hword
    all_goals
      unfold processInfoWords
      omega
  · refine .inl ?_
    -- both writes go to memory behind the tables
    have hfar : threadsInfoPtr + maxThreadsCount ≤ processInfoWords * pid := by
      unfold threadsInfoPtr maxThreadsCount processInfoWords maxProcessesCount at *
      omega
    have hnear : pid < processInfoWords * pid := by
      unfold threadsInfoPtr maxProcessesCount at *
      omega
    have hfar1 : threadsInfoPtr + maxThreadsCount ≤ processInfoWords * pid + 1 := by omega
    have hfar2 : threadsInfoPtr + maxThreadsCount ≤ processInfoWords * pid + 2 := by omega
    refine not_exact_of_ready h hpid hnull hreg ?_ ?_ ?_
    · intro i hi
      rw [(thread_setWord hi (.inr hfar1)).1, (thread_setWord hi (.inr hfar2)).1]
    · intro i hi
      rw [(thread_setWord hi (.inr hfar1)).2, (thread_setWord hi (.inr hfar2)).2]
    · have hword : update (update k1.words (processInfoWords * pid + 2) tid)
          (processInfoWords * pid + 1) 2 pid = k1.words pid := by
        rw [update_of_ne (by omega), update_of_ne (by omega)]
      change deref (update (update k1.words _ _) _ _) _ pid = _
      rw [deref, hword]
      rfl

/-! ## Every call -/

/-- **One call** that makes a thread, or the second exit of a thread. -/
theorem harmless_of_counts (h : k.Sound) (hfits : call.Fits k) (hk : call.apply k = some k')
    (hcounts : Counts k call k') : call.Harmless k := by
  by_contra hharmless
  cases call with
  | runElfProcess caller isFork processAddr cr3 threadAddr loading =>
    obtain ⟨hcaller, hprocess, hthread, hslot, hslot'⟩ := hfits
    obtain rfl := not_not.mp hharmless
    obtain ⟨⟨r, k1⟩, hrun, rfl⟩ := map_eq_some_iff.mp hk
    obtain ⟨⟨pid, k2⟩, hprepare, hstart⟩ := bind_eq_some_iff.mp hrun
    obtain ⟨hprepared, hconcerns⟩ := prepareProcess_spec h hcaller hprocess hslot hprepare
    have hthread' : k2.FreshThread threadAddr := by
      rw [Kernel.FreshThread, hprepared.threadPtrs]
      exact hthread
    have hslot'' : k2.HasThreadSlot := by
      rw [Kernel.HasThreadSlot, hprepared.threadPtrs]
      exact hslot'
    rcases not_exact_of_start hprepared.sound hprepared.pid_lt hprepared.ne_zero hthread' hslot''
      hstart with hnot | ⟨hlt, hword⟩
    · exact hnot hcounts.exact
    · have hframe := hcounts.frame (pid + 4) hlt fun hc => by
        have := (hconcerns _ _ _).mp hc
        omega
      rw [← (hprepared.frame (pid + 4) hlt (by omega)).1] at hframe
      exact hword hframe.1
  | registerAThread pid threadAddr =>
    obtain ⟨hpid, hnull, hthread, hslot⟩ := hfits
    obtain ⟨⟨tid, k1⟩, hregister, rfl⟩ := map_eq_some_iff.mp hk
    have hreg := registerAThread_spec hpid hthread hslot hregister
    obtain ⟨p, hp⟩ := h.process_of_ne_zero hpid hnull
    have hlive : ¬ (newThread pid tid).Gone := by
      simp [Thread.Gone, newThread]
    exact not_exact_of_insert (t := newThread pid tid) h.exact hpid hreg.tid_lt hreg.free hlive
      hreg.thread hp ((hreg.process hpid).trans hp) rfl hcounts.exact
  | sysClone caller flags childAddr =>
    obtain ⟨hcaller, hthread, i, hi, hlt, hnull⟩ := hfits
    obtain ⟨⟨r, k1⟩, hclone, rfl⟩ := map_eq_some_iff.mp hk
    rcases sysClone_cases hclone with ⟨hno, -⟩ | ⟨t, p, tid, ht, hp, -, -, htid, rfl⟩
    · exact hharmless hno
    · obtain ⟨s, hintact, -⟩ := id h
      have hpid := (hintact.pid_lt caller hcaller t ((hintact.thread caller hcaller) ▸ ht)).1
      have hlive : ¬ ({ t with state := .ready, tid := tid } : Thread).Gone := by
        simp [Thread.Gone]
      refine not_exact_of_insert (t := { t with state := .ready, tid := tid }) h.exact hpid
        (getAFreeSlot_lt htid ⟨i, by omega, hlt, hnull⟩)
        (Kernel.thread_of_null (getAFreeSlot_spec htid).1) hlive
        (fun j hj => thread_insertThread hthread hj) hp ?_ rfl hcounts.exact
      have hword : update k.words (threadsInfoPtr + tid) childAddr t.pid =
          k.words t.pid := by
        refine update_of_ne ?_ _ _
        unfold threadsInfoPtr maxProcessesCount at *
        omega
      change deref (update k.words _ _) _ t.pid = _
      rw [deref, hword]
      exact hp
  | sysExit caller status =>
    obtain ⟨s, t, p, s', hi, hs, rfl, ht, hp, hpid, hends, hi'⟩ := exits_of_sysExit h hfits hk
    have hthread : k.thread (s.current ()) = some t := (hi.thread _ hfits).trans ht
    have hgone : t.Gone := not_not.mp fun hlive => hharmless ⟨t, hthread, hlive⟩
    have hp0 : k.process t.pid = some p := (hi.process _ hpid).trans hp
    have hexit := fun p' hp' => hcounts.exit _ status t p p' rfl hthread hp0 hp'
    obtain ⟨p1, hp1⟩ : ∃ p1, s'.processes t.pid = some p1 := by
      have hnull : k.words t.pid ≠ 0 := (hi.pid_lt _ hfits t ht).2
      rw [← sysExit_words hk] at hnull
      exact isSome_iff_exists.mp (hi'.process_isSome _ hpid hnull)
    rcases hs.not_exit_of_gone ht hgone hp hends with hzero | ⟨p', hp', hwrong⟩
    · have hpos := (hexit p1 ((hi'.process _ hpid).trans hp1)).1
      omega
    · have hk' : k'.process t.pid = some p' := (hi'.process _ hpid).trans hp'
      rcases hwrong with hcount | hended
      · refine hcount ?_
        rw [← hi'.liveThreads_eq]
        exact hcounts.exact _ hpid p' hk'
      · exact ((hexit p' hk').2.mp hended).1 hgone

/-- **Every run** of harmless calls, from sound tables: the next call counts right exactly if it is
harmless too. -/
theorem counts_iff_harmless {k₀ : Kernel} {calls : List Call} (h₀ : k₀.Sound)
    (hrun : Run Call.apply (fun k call => call.Fits k ∧ call.Harmless k) k₀ calls k)
    (hfits : call.Fits k) (hk : call.apply k = some k') :
    Counts k call k' ↔ call.Harmless k := by
  have hsound : k.Sound := hrun.invariant Kernel.Sound
    (fun _ _ _ h hok hk => (sound_of_apply h hok.1 hok.2 hk).1) h₀
  exact ⟨harmless_of_counts hsound hfits hk,
    fun hharmless => (sound_of_apply hsound hfits hharmless hk).2⟩

/-! ## Two processes and three threads -/

/-- The idle process with its thread 0, and process 1 with the threads 2 and 3. -/
def smallWords (i : ℕ) : ℕ :=
  if i = 0 then 0x1000 else if i = 1 then 0x2000 else if i = threadsInfoPtr then 0x3000
  else if i = threadsInfoPtr + 2 then 0x4000 else if i = threadsInfoPtr + 3 then 0x5000 else 0

def smallProcesses (addr : ℕ) : Option Process :=
  if addr = 0x1000 then some
    { addr := 0x1000, state := .idle, signal := 0, threadsCount := 1, parentPid := 0,
      returnCode := 0 }
  else if addr = 0x2000 then some
    { addr := 0x2000, state := .running, signal := 0, threadsCount := 2, parentPid := 1,
      returnCode := 0 }
  else none

def smallThreads (addr : ℕ) : Option Thread :=
  if addr = 0x3000 then some { newThread 0 0 with state := .idle }
  else if addr = 0x4000 then some { newThread 1 2 with state := .ready }
  else if addr = 0x5000 then some { newThread 1 3 with state := .running }
  else none

def smallKernel : Kernel :=
  { words := smallWords, processRecords := smallProcesses, threadRecords := smallThreads }

theorem smallKernel_threadPtrs (i : ℕ) : smallKernel.threadPtrs i =
    if i = 0 then 0x3000 else if i = 2 then 0x4000 else if i = 3 then 0x5000 else 0 := by
  change smallWords (threadsInfoPtr + i) = _
  unfold smallWords threadsInfoPtr
  split_ifs <;> omega

theorem smallKernel_words (hpid : pid < maxProcessesCount) : smallKernel.words pid =
    if pid = 0 then 0x1000 else if pid = 1 then 0x2000 else 0 := by
  change smallWords pid = _
  unfold smallWords threadsInfoPtr
  unfold maxProcessesCount at hpid
  split_ifs <;> omega

theorem smallKernel_thread {i : ℕ} {t : Thread} (h : smallKernel.thread i = some t) :
    t.tid = i ∧ t.pid ≤ 1 := by
  obtain ⟨hnull, h⟩ := deref_eq_some.mp h
  rw [smallKernel_threadPtrs] at hnull h
  split_ifs at hnull h with h0 h2 h3
  · cases h
    exact ⟨h0.symm, by decide⟩
  · cases h
    exact ⟨h2.symm, by decide⟩
  · cases h
    exact ⟨h3.symm, by decide⟩
  · exact absurd rfl hnull

/-- The tables that the pointers make up. -/
def smallSystem : System Unit where
  threads := smallKernel.thread
  processes pid := if pid < maxProcessesCount then smallKernel.process pid else none
  current _ := 0
  tid_eq _ _ h := (smallKernel_thread h).1

theorem intact_small : Intact smallKernel smallSystem := by
  refine ⟨fun _ _ => rfl, ?_, ?_, ?_, ?_, ?_, ?_, ?_⟩
  · exact fun pid hpid => (if_pos hpid).symm
  · exact fun pid hpid => if_neg (not_lt.mpr hpid)
  · intro i _ hnull
    rw [smallKernel_threadPtrs] at hnull
    split_ifs at hnull with h0 h2 h3
    · exact h0 ▸ rfl
    · exact h2 ▸ rfl
    · exact h3 ▸ rfl
    · exact absurd rfl hnull
  · intro pid hpid hnull
    rw [smallKernel_words hpid] at hnull
    split_ifs at hnull with h0 h1
    · exact h0 ▸ rfl
    · exact h1 ▸ rfl
    · exact absurd rfl hnull
  · intro i _ j _ hnull heq
    rw [smallKernel_threadPtrs, smallKernel_threadPtrs] at heq
    rw [smallKernel_threadPtrs] at hnull
    split_ifs at hnull heq <;> omega
  · intro i hi j hj hnull heq
    rw [smallKernel_words hi, smallKernel_words hj] at heq
    rw [smallKernel_words hi] at hnull
    split_ifs at hnull heq <;> omega
  · intro i _ t ht
    have hle := (smallKernel_thread ht).2
    have hlt : t.pid < maxProcessesCount := by
      unfold maxProcessesCount
      omega
    refine ⟨hlt, ?_⟩
    rw [smallKernel_words hlt]
    split_ifs <;> omega

theorem sound_small : smallKernel.Sound := by
  refine ⟨smallSystem, intact_small, ?_, ?_⟩
  all_goals
    intro pid p hp
    have hpid : pid < maxProcessesCount := by
      by_contra hge
      cases (if_neg hge).symm.trans hp
    have hp : smallKernel.process pid = some p := (if_pos hpid).symm.trans hp
    obtain ⟨hnull, hp⟩ := deref_eq_some.mp hp
    rw [smallKernel_words hpid] at hnull hp
    split_ifs at hnull hp with h0 h1
    · cases hp
      subst h0
      decide +kernel
    · cases hp
      subst h1
      decide +kernel
    · exact absurd rfl hnull

/-- Thread 2 and then thread 3 of process 1 exit. -/
theorem counts_iff_harmless_exit : ∃ k k',
    Run Call.apply (fun k call => call.Fits k ∧ call.Harmless k) smallKernel [.sysExit 2 0] k ∧
    Call.apply k (.sysExit 3 0) = some k' ∧ Call.Harmless k (.sysExit 3 0) ∧
    Counts k (.sysExit 3 0) k' := by
  obtain ⟨k, hk, hlive, k', hk', -⟩ : ∃ k ∈ Call.apply smallKernel (.sysExit 2 0),
      (Holds k.thread 3 fun t => ¬ t.Gone) ∧ ∃ k' ∈ Call.apply k (.sysExit 3 0), True := by
    decide +kernel
  have hfirst : Call.Harmless smallKernel (.sysExit 2 0) := by
    change Holds smallKernel.thread 2 fun t => ¬ t.Gone
    decide
  have hrun : Run Call.apply (fun k call => call.Fits k ∧ call.Harmless k) smallKernel
      [.sysExit 2 0] k := by
    refine .snoc (.nil smallKernel) ⟨?_, hfirst⟩ hk
    change 2 < maxThreadsCount
    decide
  have hharmless : Call.Harmless k (.sysExit 3 0) := hlive
  refine ⟨k, k', hrun, hk', hharmless, ?_⟩
  refine (counts_iff_harmless sound_small hrun ?_ hk').mpr hharmless
  change 3 < maxThreadsCount
  decide

/-- The program that is started gets the entry 2 of the process table. -/
def startProgram : Call :=
  .runElfProcess 2 false 0x6000 0x7000 0x8000 .loaded

/-- **A program that is started.** Process 2 has the thread 4 and the count 0: when the thread
exits, the count wraps and the process is not marked. -/
theorem runElfProcess_miscounts : smallKernel.Sound ∧ ∃ k k',
    startProgram.apply smallKernel = some k ∧ ¬ Counts smallKernel startProgram k ∧
    smallKernel.words 6 = 0 ∧ k.words 6 = 1 ∧ liveThreads k.thread 2 = 1 ∧
    (Holds k.process 2 fun p => p.threadsCount = 0) ∧
    Call.apply k (.sysExit 4 0) = some k' ∧
    Holds k'.process 2 fun p => p.threadsCount = 2 ^ 64 - 1 ∧ p.state = .running := by
  simp only [exists_and_left]
  refine ⟨sound_small, exists_of_eval (Q := fun k => k.words 6 = 1 ∧ liveThreads k.thread 2 = 1 ∧
    (Holds k.process 2 fun p => p.threadsCount = 0) ∧ ∃ k' ∈ Call.apply k (.sysExit 4 0),
      Holds k'.process 2 fun p => p.threadsCount = 2 ^ 64 - 1 ∧ p.state = .running)
    (by decide +kernel) ?_⟩
  rintro k - ⟨hword, hlive, ⟨p, hp, hzero⟩, k', hk', hwrap⟩
  refine ⟨?_, rfl, hword, hlive, ⟨p, hp, hzero⟩, k', hk', hwrap⟩
  intro hcounts
  have hexact := hcounts.exact 2 (by decide) p hp
  rw [hzero, hlive] at hexact
  cases hexact

end CarrotOS.Sched
