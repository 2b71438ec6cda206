import CarrotOS.Sched.Signal
import Mathlib.Data.Finset.Card

/-!
# The threads of a process

`threads_count` of a process is meant to be the number of its threads that have not ended. A
thread that exits takes itself off the count, and ends the process when it reaches 0.
-/

namespace CarrotOS.Sched

open Word Table Function Option

variable {g : Thread → Thread}

variable {threads : ℕ → Option Thread} {i pid q : ℕ}

/-- The threads of a process that have not ended. -/
def liveSet (threads : ℕ → Option Thread) (pid : ℕ) : Finset ℕ :=
  {i ∈ Finset.range maxThreadsCount | Holds threads i fun t => t.pid = pid ∧ ¬ t.Gone}

def liveThreads (threads : ℕ → Option Thread) (pid : ℕ) : ℕ :=
  (liveSet threads pid).card

theorem mem_liveSet : i ∈ liveSet threads pid ↔
    i < maxThreadsCount ∧ Holds threads i fun t => t.pid = pid ∧ ¬ t.Gone := by
  rw [liveSet, Finset.mem_filter, Finset.mem_range]

theorem liveThreads_le : liveThreads threads pid ≤ maxThreadsCount :=
  (Finset.card_filter_le _ _).trans_eq (Finset.card_range _)

theorem liveSet_modify (hg : ∀ t, (g t).Gone) :
    liveSet (modify threads i g) pid = (liveSet threads pid).erase i := by
  ext j
  rw [Finset.mem_erase, mem_liveSet, mem_liveSet]
  constructor
  · rintro ⟨hj, t', ht', hpid, hgone⟩
    obtain ⟨t, ht, rfl⟩ := modify_eq_some.mp ht'
    by_cases hji : j = i
    · rw [if_pos hji] at hgone
      exact absurd (hg t) hgone
    · rw [if_neg hji] at hpid hgone
      exact ⟨hji, hj, t, ht, hpid, hgone⟩
  · rintro ⟨hji, hj, t, ht, hlive⟩
    exact ⟨hj, t, (modify_of_ne hji).trans ht, hlive⟩

theorem liveThreads_insert {t : Thread} (hi : i < maxThreadsCount) (hfree : threads i = none)
    (hlive : ¬ t.Gone) :
    liveThreads (update threads i (some t)) t.pid = liveThreads threads t.pid + 1 := by
  have hset : liveSet (update threads i (some t)) t.pid =
      insert i (liveSet threads t.pid) := by
    ext j
    rw [Finset.mem_insert, mem_liveSet, mem_liveSet]
    by_cases hji : j = i
    · subst hji
      exact iff_of_true ⟨hi, t, update_self .., rfl, hlive⟩ (.inl rfl)
    · simp only [Holds, update_of_ne hji, hji, false_or]
  rw [liveThreads, hset, Finset.card_insert_of_notMem, liveThreads]
  intro hmem
  obtain ⟨-, t', ht', -⟩ := mem_liveSet.mp hmem
  cases hfree.symm.trans ht'

theorem liveThreads_congr {threads' : ℕ → Option Thread}
    (h : ∀ i < maxThreadsCount, threads i = threads' i) :
    liveThreads threads pid = liveThreads threads' pid := by
  have hset : liveSet threads pid = liveSet threads' pid := by
    ext j
    rw [mem_liveSet, mem_liveSet]
    refine and_congr_right fun hj => ?_
    rw [Holds, Holds, h j hj]
  rw [liveThreads, hset, liveThreads]

theorem liveSet_sweep (threads : ℕ → Option Thread) (pid q : ℕ) {p : ℕ → Thread → Bool}
    (hg : ∀ t, (g t).Gone) (hp : ∀ i t, p i t = true → t.pid = pid) :
    liveSet (sweep maxThreadsCount p g threads) q ⊆ liveSet threads q ∧
      (q ≠ pid → liveSet (sweep maxThreadsCount p g threads) q = liveSet threads q) := by
  have hsubset : liveSet (sweep maxThreadsCount p g threads) q ⊆ liveSet threads q := by
    intro j hj
    obtain ⟨hlt, t', ht', hpid, hgone⟩ := mem_liveSet.mp hj
    obtain ⟨t, ht, rfl⟩ := sweep_eq_some.mp ht'
    split_ifs at hpid hgone with hswept
    · exact absurd (hg t) hgone
    · exact mem_liveSet.mpr ⟨hlt, t, ht, hpid, hgone⟩
  refine ⟨hsubset, fun hq => hsubset.antisymm ?_⟩
  intro j hj
  obtain ⟨hlt, t, ht, hpid, hgone⟩ := mem_liveSet.mp hj
  have hkeep : ¬ (j < maxThreadsCount ∧ p j t = true) :=
    fun hswept => hq (hpid.symm.trans (hp j t hswept.2))
  exact mem_liveSet.mpr
    ⟨hlt, t, sweep_eq_some.mpr ⟨t, ht, (if_neg hkeep).symm⟩, hpid, hgone⟩

/-- The counts of all processes are exact, and no process with a live thread is marked. -/
structure Counted (threads : ℕ → Option Thread) (processes : ℕ → Option Process) : Prop where
  count : ∀ pid p, processes pid = some p → p.threadsCount = liveThreads threads pid
  ended : ∀ pid p, processes pid = some p → p.state = .endedButNotCleaned →
    liveThreads threads pid = 0

/-! ## Exits -/

section Exit

variable {κ : Type} {s s' : System κ} {c : κ} {t : Thread} {p : Process} {returnCode : ℕ}

/-- What `mark_current_thread_as_ended` does to the two tables. -/
structure Exited (s : System κ) (tid : ℕ) (t : Thread) (p : Process) (s' : System κ) : Prop where
  live : ∀ q ≠ t.pid, liveThreads s'.threads q = liveThreads s.threads q
  frame : ∀ q ≠ t.pid, s'.processes q = s.processes q
  ends : u64 (p.threadsCount + 2 ^ 64 - 1) = 0 → ∃ p', s'.processes t.pid = some p' ∧
    p'.state = .endedButNotCleaned ∧ p'.threadsCount = 0 ∧
    liveThreads s'.threads t.pid ≤ ((liveSet s.threads t.pid).erase tid).card
  goes : u64 (p.threadsCount + 2 ^ 64 - 1) ≠ 0 → ∃ p', s'.processes t.pid = some p' ∧
    p'.state = p.state ∧ p'.threadsCount = u64 (p.threadsCount + 2 ^ 64 - 1) ∧
    liveThreads s'.threads t.pid = ((liveSet s.threads t.pid).erase tid).card

theorem markProcessAsEnded_live (ht : s.threads (s.current c) = some t)
    (h : markProcessAsEnded s c = some s') :
    (∀ q, liveSet s'.threads q ⊆ liveSet s.threads q) ∧
      (∀ q ≠ t.pid, liveSet s'.threads q = liveSet s.threads q) ∧
      s'.processes =
        modify s.processes t.pid fun p => { p with state := .endedButNotCleaned } := by
  obtain ⟨curr, hcurr, h⟩ := bind_eq_some_iff.mp h
  obtain rfl := some.inj (hcurr.symm.trans ht)
  obtain ⟨proc, -, h⟩ := bind_eq_some_iff.mp h
  obtain rfl := some.inj h
  have hsweep := fun q => liveSet_sweep s.threads curr.pid q
    (p := fun _ t => t.pid == curr.pid && t.state != .notExist && t.state != .endedButNotCleaned)
    (g := fun t => { t with state := .endedButNotCleaned }) (fun _ => .inl rfl) fun _ t ht => by
      simp only [Bool.and_eq_true, beq_iff_eq] at ht
      exact ht.1.1
  exact ⟨fun q => (hsweep q).1, fun q => (hsweep q).2, rfl⟩

theorem markCurrentThreadAsEnded_exited (hcurr : s.threads (s.current c) = some t)
    (hproc : s.processes t.pid = some p)
    (h : markCurrentThreadAsEnded s c returnCode = some s') :
    Exited s (s.current c) t p s' := by
  rw [markCurrentThreadAsEnded_eq hcurr hproc] at h
  -- the tables after the thread has marked itself and has left the count
  generalize hs1 : (s.modify (s.current c) (fun t =>
    { t with state := .endedButNotCleaned, returnCode := returnCode }) _).modifyProcess t.pid
      (fun p' => { p' with threadsCount := u64 (p.threadsCount + 2 ^ 64 - 1) }) = s1 at h
  have hset : ∀ q, liveSet s1.threads q = (liveSet s.threads q).erase (s.current c) := by
    intro q
    rw [← hs1]
    exact liveSet_modify fun _ => .inl rfl
  have hother : ∀ q ≠ t.pid, liveSet s1.threads q = liveSet s.threads q := by
    intro q hq
    rw [hset]
    refine Finset.erase_eq_of_notMem fun hmem => hq ?_
    obtain ⟨-, t', ht', hpid, -⟩ := mem_liveSet.mp hmem
    cases ht'.symm.trans hcurr
    exact hpid.symm
  have hframe : ∀ q ≠ t.pid, s1.processes q = s.processes q := by
    intro q hq
    rw [← hs1]
    exact modify_of_ne hq
  have hself : s1.processes t.pid =
      some { p with threadsCount := u64 (p.threadsCount + 2 ^ 64 - 1) } := by
    rw [← hs1]
    exact modify_eq_some.mpr ⟨p, hproc, (if_pos rfl).symm⟩
  have hcurr1 : s1.threads (s1.current c) = some { t with
      state := .endedButNotCleaned, returnCode := returnCode } := by
    rw [← hs1]
    exact modify_eq_some.mpr ⟨t, hcurr, (if_pos rfl).symm⟩
  split_ifs at h with hlast
  · obtain ⟨hsub, heq, hprocesses⟩ := markProcessAsEnded_live hcurr1 h
    refine ⟨?_, ?_, fun hzero => ?_, fun hne => absurd (Nat.le_zero.mp hlast) hne⟩
    · intro q hq
      rw [liveThreads, heq q hq, hother q hq, liveThreads]
    · intro q hq
      rw [hprocesses, modify_of_ne hq, hframe q hq]
    · have hself' := (congrFun hprocesses t.pid).trans
        (modify_eq_some.mpr ⟨_, hself, (if_pos rfl).symm⟩)
      refine ⟨_, hself', rfl, hzero, ?_⟩
      rw [← hset]
      exact Finset.card_le_card (hsub t.pid)
  · cases h
    refine ⟨?_, hframe, fun hzero => absurd (Nat.le_zero.mpr hzero) hlast, fun _ => ?_⟩
    · intro q hq
      rw [liveThreads, hother q hq, liveThreads]
    · exact ⟨_, hself, rfl, rfl, by rw [← hset, liveThreads]⟩

theorem u64_pred {n : ℕ} (hpos : 0 < n) (hle : n ≤ maxThreadsCount) :
    u64 (n + 2 ^ 64 - 1) = n - 1 := by
  unfold maxThreadsCount at hle
  rw [show n + 2 ^ 64 - 1 = n - 1 + 2 ^ 64 by omega]
  unfold u64
  rw [Nat.add_mod_right, Nat.mod_eq_of_lt (by omega)]

/-- **An exit** of a thread that has not ended. -/
theorem Counted.exit (hs : Counted s.threads s.processes) (ht : s.threads (s.current c) = some t)
    (hlt : s.current c < maxThreadsCount) (hlive : ¬ t.Gone) (hp : s.processes t.pid = some p)
    (h : markCurrentThreadAsEnded s c returnCode = some s') :
    Counted s'.threads s'.processes ∧ 0 < p.threadsCount ∧
      ∀ p', s'.processes t.pid = some p' →
        (p'.state = .endedButNotCleaned ↔ liveThreads s.threads t.pid = 1) := by
  have hmem : s.current c ∈ liveSet s.threads t.pid := mem_liveSet.mpr ⟨hlt, t, ht, rfl, hlive⟩
  have hcount := hs.count _ p hp
  have hpos : 0 < p.threadsCount := hcount ▸ Finset.card_pos.mpr ⟨_, hmem⟩
  have herase : ((liveSet s.threads t.pid).erase (s.current c)).card = p.threadsCount - 1 := by
    rw [Finset.card_erase_of_mem hmem, hcount, liveThreads]
  have hstate : p.state ≠ .endedButNotCleaned := by
    intro hended
    have := hs.ended _ p hp hended
    omega
  obtain ⟨hothers, hframe, hends, hgoes⟩ := markCurrentThreadAsEnded_exited ht hp h
  rw [u64_pred hpos (hcount ▸ liveThreads_le), herase] at hends hgoes
  by_cases hlast : p.threadsCount - 1 = 0
  · have hone : p.threadsCount = 1 := Nat.le_antisymm (Nat.sub_eq_zero_iff_le.mp hlast) hpos
    obtain ⟨p', hp', hended, hzero, hcard⟩ := hends hlast
    have hnone : liveThreads s'.threads t.pid = 0 := by omega
    refine ⟨⟨?_, ?_⟩, hpos, ?_⟩
    · intro q p'' hq
      by_cases hne : q = t.pid
      · subst hne
        cases hp'.symm.trans hq
        rw [hzero, hnone]
      · rw [hothers q hne]
        exact hs.count q p'' ((hframe q hne).symm.trans hq)
    · intro q p'' hq hq'
      by_cases hne : q = t.pid
      · rw [hne, hnone]
      · rw [hothers q hne]
        exact hs.ended q p'' ((hframe q hne).symm.trans hq) hq'
    · intro p'' hq
      cases hp'.symm.trans hq
      exact iff_of_true hended (hcount.symm.trans hone)
  · have hone : p.threadsCount ≠ 1 := fun heq => hlast (Nat.sub_eq_zero_of_le heq.le)
    obtain ⟨p', hp', hsame, hpred', hcard⟩ := hgoes hlast
    refine ⟨⟨?_, ?_⟩, hpos, ?_⟩
    · intro q p'' hq
      by_cases hne : q = t.pid
      · subst hne
        cases hp'.symm.trans hq
        rw [hpred', hcard]
      · rw [hothers q hne]
        exact hs.count q p'' ((hframe q hne).symm.trans hq)
    · intro q p'' hq hq'
      by_cases hne : q = t.pid
      · subst hne
        cases hp'.symm.trans hq
        exact absurd (hsame.symm.trans hq') hstate
      · rw [hothers q hne]
        exact hs.ended q p'' ((hframe q hne).symm.trans hq) hq'
    · intro p'' hq
      cases hp'.symm.trans hq
      exact iff_of_false (fun hended => hstate (hsame.symm.trans hended))
        fun hcard => hone (hcount.trans hcard)

/-- An exit of a thread that has ended before: the count is 0, or is wrong afterwards, or a process
with a live thread is marked. -/
theorem Counted.not_exit_of_gone (hs : Counted s.threads s.processes)
    (ht : s.threads (s.current c) = some t) (hgone : t.Gone) (hp : s.processes t.pid = some p)
    (h : markCurrentThreadAsEnded s c returnCode = some s') :
    p.threadsCount = 0 ∨ ∃ p', s'.processes t.pid = some p' ∧
      (p'.threadsCount ≠ liveThreads s'.threads t.pid ∨ p'.state = .endedButNotCleaned) := by
  have hcount := hs.count _ p hp
  have hmem : s.current c ∉ liveSet s.threads t.pid := by
    intro hmem
    obtain ⟨-, t', ht', -, hlive⟩ := mem_liveSet.mp hmem
    cases ht.symm.trans ht'
    exact hlive hgone
  obtain ⟨-, -, hends, hgoes⟩ := markCurrentThreadAsEnded_exited ht hp h
  rcases Nat.eq_zero_or_pos p.threadsCount with hzero | hpos
  · exact .inl hzero
  rw [u64_pred hpos (hcount ▸ liveThreads_le)] at hends hgoes
  rw [Finset.erase_eq_of_notMem hmem] at hgoes
  refine .inr ?_
  by_cases hlast : p.threadsCount - 1 = 0
  · obtain ⟨p', hp', hended, -⟩ := hends hlast
    exact ⟨p', hp', .inr hended⟩
  · obtain ⟨p', hp', -, hpred, hcard⟩ := hgoes hlast
    refine ⟨p', hp', .inl ?_⟩
    change _ = liveThreads s.threads t.pid at hcard
    omega

end Exit

end CarrotOS.Sched
