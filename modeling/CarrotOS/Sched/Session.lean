import CarrotOS.Lib.Run
import CarrotOS.Lib.Table
import CarrotOS.Sched.Basic

/-!
# Process groups and sessions (`core/syscall/syscall2.h`)

A process group should lie inside one session. `sys_setpgid` tests that the process which changes
its group is in the session of the caller, and does not look at the group that it joins;
`sys_setsid` takes the number of the process as the number of a new group, and does not look whether
other processes have joined a group of that number. Each call writes one record, and the groups
still lie inside sessions exactly if the other processes of the group that is written have the
session that is written.
-/

namespace CarrotOS.Session

open Function Table Transition Option

structure Member where
  pid : ℕ
  parentPid : ℕ
  pgid : ℕ
  sid : ℕ
  state : ProcessState
  deriving DecidableEq, Repr

/-- The process has neither ended nor been stopped. -/
def Member.Live (p : Member) : Prop :=
  p.state = .running ∨ p.state = .idle ∨ p.state = .handlingSignal

instance : DecidablePred Member.Live := fun _ => inferInstanceAs (Decidable (_ ∨ _ ∨ _))

/-- `processes_info_ptr`, with the word behind it. -/
abbrev Members := ℕ → Option Member

variable {ps ps' : Members} {a b cur pid pgid r : ℕ} {p q : Member}

/-! ## The calls -/

def ePerm : ℕ := 1

/-- `sys_setpgid`, called by the process `cur`. -/
def sysSetpgid (ps : Members) (cur pid pgid : ℕ) : Option (ℕ × Members) := do
  let pid := if pid = 0 then cur else pid
  let caller ← ps cur
  let target ← ps pid
  let pgid := if pgid = 0 then pid else pgid
  if target.sid ≠ caller.sid then some (errno ePerm, ps)
  else if target.parentPid ≠ caller.pid ∧ target.pid ≠ caller.pid then some (errno eSrch, ps)
  else some (0, update ps pid (some { target with pgid := pgid }))

def sysSetsid (ps : Members) (cur : ℕ) : Option (ℕ × Members) := do
  let caller ← ps cur
  if caller.pid = caller.pgid then some (errno ePerm, ps)
  else some (caller.pid,
    update ps cur (some { caller with sid := caller.pid, pgid := caller.pid }))

/-- `sys_fork`, the part that concerns the record of the child. A full table gives the child the
word behind the table. -/
def sysFork (ps : Members) (cur : ℕ) : Option (ℕ × Members) := do
  let parent ← ps cur
  let childPid ← getAFreeSlot (fun i => (ps i).elim 0 fun _ => 1) 1 maxProcessesCount
  some (childPid, update ps childPid
    (some { parent with pid := childPid, parentPid := parent.pid, state := .running }))

/-! ## The law -/

/-- The process `p` stands in the table and is live. -/
def LiveAt (ps : Members) (a : ℕ) (p : Member) : Prop :=
  a < maxProcessesCount ∧ ps a = some p ∧ p.Live

def OneSession (ps : Members) : Prop :=
  ∀ a b p q, LiveAt ps a p → LiveAt ps b q → p.pgid = q.pgid → p.sid = q.sid

/-- The live processes of the group other than `a` are in the session. -/
def GroupIn (ps : Members) (a pgid sid : ℕ) : Prop :=
  ∀ b q, b ≠ a → LiveAt ps b q → q.pgid = pgid → q.sid = sid

/-- Two processes are not in one group of two sessions. -/
def Member.Agrees (p q : Member) : Prop :=
  p.Live → q.Live → p.pgid = q.pgid → p.sid = q.sid

theorem Member.Agrees.symm (h : p.Agrees q) : q.Agrees p :=
  fun hq hp hgroup => (h hp hq hgroup.symm).symm

theorem oneSession_iff_pairwise : OneSession ps ↔ Pairwise maxProcessesCount Member.Agrees ps := by
  constructor
  · intro h a ha b hb _ p q hp hq hplive hqlive hgroup
    exact h a b p q ⟨ha, hp, hplive⟩ ⟨hb, hq, hqlive⟩ hgroup
  · rintro h a b p q ⟨ha, hp, hplive⟩ ⟨hb, hq, hqlive⟩ hgroup
    by_cases hab : a = b
    · subst hab
      cases hp.symm.trans hq
      rfl
    · exact h a ha b hb hab p q hp hq hplive hqlive hgroup

/-- **One record is written**: the law is kept exactly if the rest of the group written has the
session written. -/
theorem oneSession_update (h : OneSession ps) :
    OneSession (update ps a (some p)) ↔
      (a < maxProcessesCount → p.Live → GroupIn ps a p.pgid p.sid) := by
  rw [oneSession_iff_pairwise, pairwise_update (fun _ _ => Member.Agrees.symm)
    (oneSession_iff_pairwise.mp h)]
  constructor
  · rintro hagrees ha hlive b q hb ⟨hlt, hq, hqlive⟩ hgroup
    exact (hagrees ha b hlt hb q hq hlive hqlive hgroup.symm).symm
  · intro hin ha b hlt hb q hq hlive hqlive hgroup
    exact (hin ha hlive b q hb ⟨hlt, hq, hqlive⟩ hgroup.symm).symm

/-! ## Runs -/

inductive Call
  | sysSetpgid (cur pid pgid : ℕ)
  | sysSetsid (cur : ℕ)
  | sysFork (cur : ℕ)

namespace Call

def apply (ps : Members) : Call → Option Members
  | sysSetpgid cur pid pgid => (Session.sysSetpgid ps cur pid pgid).map Prod.snd
  | sysSetsid cur => (Session.sysSetsid ps cur).map Prod.snd
  | sysFork cur => (Session.sysFork ps cur).map Prod.snd

def Exists (ps : Members) (a : ℕ) : Prop :=
  a < maxProcessesCount ∧ (ps a).isSome

/-- The caller and the arguments name processes. The argument 0 stands for the caller, and for the
target. -/
def Names (ps : Members) : Call → Prop
  | sysSetpgid cur pid pgid =>
    Exists ps cur ∧ (pid = 0 ∨ Exists ps pid) ∧ (pgid = 0 ∨ Exists ps pgid)
  | sysSetsid cur | sysFork cur => Exists ps cur

instance (ps : Members) (call : Call) : Decidable (call.Names ps) :=
  match call with
  | sysSetpgid _ _ _ => inferInstanceAs (Decidable ((_ ∧ _) ∧ (_ ∨ _ ∧ _) ∧ (_ ∨ _ ∧ _)))
  | sysSetsid _ => inferInstanceAs (Decidable (_ ∧ _))
  | sysFork _ => inferInstanceAs (Decidable (_ ∧ _))

/-- The group that a process joins has to be in its session, and a process that opens a session must
not find others in the group of its own number. -/
def Harmless (ps : Members) : Call → Prop
  | sysSetpgid cur pid pgid =>
    let pid := if pid = 0 then cur else pid
    ∀ caller target, ps cur = some caller → LiveAt ps pid target → target.sid = caller.sid →
      target.parentPid = caller.pid ∨ target.pid = caller.pid →
      GroupIn ps pid (if pgid = 0 then pid else pgid) target.sid
  | sysSetsid cur =>
    ∀ caller, LiveAt ps cur caller → caller.pid ≠ caller.pgid → GroupIn ps cur caller.pid caller.pid
  | sysFork cur =>
    -- a parent that is live is in the session of its group already
    ∀ parent, ps cur = some parent → (∃ j, 1 ≤ j ∧ j < maxProcessesCount ∧ ps j = none) →
      ∀ b q, LiveAt ps b q → q.pgid = parent.pgid → q.sid = parent.sid

end Call

theorem oneSession_sysSetpgid (h : OneSession ps)
    (hcall : sysSetpgid ps cur pid pgid = some (r, ps')) :
    OneSession ps' ↔ (Call.sysSetpgid cur pid pgid).Harmless ps := by
  obtain ⟨caller, hcaller, hcall⟩ := bind_eq_some_iff.mp hcall
  obtain ⟨target, htarget, hcall⟩ := bind_eq_some_iff.mp hcall
  dsimp only [Call.Harmless]
  generalize (if pid = 0 then cur else pid) = a at *
  generalize (if pgid = 0 then a else pgid) = g at *
  -- the condition speaks of the two processes that the call has found
  have hcond : (∀ caller target, ps cur = some caller → LiveAt ps a target →
      target.sid = caller.sid → target.parentPid = caller.pid ∨ target.pid = caller.pid →
        GroupIn ps a g target.sid) ↔ (target.sid = caller.sid →
          target.parentPid = caller.pid ∨ target.pid = caller.pid → a < maxProcessesCount →
            target.Live → GroupIn ps a g target.sid) := by
    constructor
    · intro hall hsid hfamily ha hlive
      exact hall caller target hcaller ⟨ha, htarget, hlive⟩ hsid hfamily
    · intro hone c t hc ht hsid hfamily
      cases hcaller.symm.trans hc
      cases htarget.symm.trans ht.2.1
      exact hone hsid hfamily ht.1 ht.2.2
  rw [hcond]
  split_ifs at hcall with hsid hfamily
  · cases hcall
    exact iff_of_true h fun heq => absurd heq hsid
  · cases hcall
    exact iff_of_true h fun _ hor => absurd hor (not_or.mpr hfamily)
  · cases hcall
    have hfamily : target.parentPid = caller.pid ∨ target.pid = caller.pid := by
      by_contra hnot
      exact hfamily (not_or.mp hnot)
    rw [oneSession_update h]
    exact ⟨fun hin _ _ => hin, fun hin => hin (not_not.mp hsid) hfamily⟩

theorem oneSession_sysSetsid (h : OneSession ps) (hcall : sysSetsid ps cur = some (r, ps')) :
    OneSession ps' ↔ (Call.sysSetsid cur).Harmless ps := by
  obtain ⟨caller, hcaller, hcall⟩ := bind_eq_some_iff.mp hcall
  split_ifs at hcall with hleader
  · cases hcall
    refine iff_of_true h fun c hc hne => absurd ?_ hne
    cases hcaller.symm.trans hc.2.1
    exact hleader
  · cases hcall
    rw [oneSession_update h]
    constructor
    · intro hin c hc _
      cases hcaller.symm.trans hc.2.1
      exact hin hc.1 hc.2.2
    · intro hharmless ha hlive
      exact hharmless caller ⟨ha, hcaller, hlive⟩ hleader

theorem oneSession_sysFork (h : OneSession ps) (hcall : sysFork ps cur = some (r, ps')) :
    OneSession ps' ↔ (Call.sysFork cur).Harmless ps := by
  obtain ⟨parent, hparent, hcall⟩ := bind_eq_some_iff.mp hcall
  obtain ⟨child, hchild, hcall⟩ := bind_eq_some_iff.mp hcall
  obtain ⟨-, rfl⟩ := Prod.mk.inj (some.inj hcall)
  have hnull : ∀ i, ((ps i).elim 0 fun _ => 1) = 0 ↔ ps i = none := by
    intro i
    cases ps i with
    | none => simp
    | some p => simp
  obtain ⟨hfree, hfrom, hupto, hfirst⟩ := getAFreeSlot_spec hchild
  have hfree := (hnull child).mp hfree
  rw [oneSession_update h]
  constructor
  · intro hin p hp hroom b q hq hgroup
    obtain rfl := some.inj (hparent.symm.trans hp)
    obtain ⟨j, hj, hlt, hjnull⟩ := hroom
    have hslot := getAFreeSlot_lt hchild ⟨j, hj, hlt, (hnull j).mpr hjnull⟩
    refine hin hslot (.inl rfl) b q ?_ hq hgroup
    rintro rfl
    cases hfree.symm.trans hq.2.1
  · intro hharmless hslot _ b q _ hq hgroup
    exact hharmless parent hparent ⟨child, hfrom, hslot, hfree⟩ b q hq hgroup

/-- **One call**: the law is kept exactly if the call is harmless. -/
theorem oneSession_apply {call : Call} (h : OneSession ps) (hcall : call.apply ps = some ps') :
    OneSession ps' ↔ call.Harmless ps := by
  cases call with
  | sysSetpgid cur pid pgid =>
    obtain ⟨⟨r, ps1⟩, hr, rfl⟩ := map_eq_some_iff.mp hcall
    exact oneSession_sysSetpgid h hr
  | sysSetsid cur =>
    obtain ⟨⟨r, ps1⟩, hr, rfl⟩ := map_eq_some_iff.mp hcall
    exact oneSession_sysSetsid h hr
  | sysFork cur =>
    obtain ⟨⟨r, ps1⟩, hr, rfl⟩ := map_eq_some_iff.mp hcall
    exact oneSession_sysFork h hr

/-- **Every run** of harmless calls: after the next one every group lies inside one session exactly
if it is harmless too. -/
theorem oneSession_iff_harmless {ps₀ : Members} {calls : List Call} {call : Call}
    (h₀ : OneSession ps₀) (hrun : Run Call.apply (fun ps call => call.Harmless ps) ps₀ calls ps)
    (hcall : call.apply ps = some ps') : OneSession ps' ↔ call.Harmless ps := by
  have h : OneSession ps := hrun.invariant OneSession
    (fun _ _ _ h hok hs => (oneSession_apply h hs).mpr hok) h₀
  exact oneSession_apply h hcall

/-! ## Three processes -/

/-- A process, its child and its grandchild, in one group and one session. -/
def family : Members := fun i =>
  if i = 1 ∨ i = 2 ∨ i = 3 then some ⟨i, i - 1, 1, 1, .running⟩ else none

theorem family_eq (h : family a = some p) : p = ⟨a, a - 1, 1, 1, .running⟩ := by
  unfold family at h
  split_ifs at h
  exact (some.inj h).symm

theorem oneSession_family : OneSession family := by
  rintro a b p q ⟨-, hp, -⟩ ⟨-, hq, -⟩ -
  rw [family_eq hp, family_eq hq]

/-- The grandchild opens a session and forks: its child is in the new group and session. -/
theorem oneSession_iff_harmless_fork : ∃ ps ps',
    Run Call.apply (fun ps call => call.Harmless ps) family [.sysSetsid 3] ps ∧
    (Call.sysFork 3).apply ps = some ps' ∧ ps' 4 = some ⟨4, 3, 3, 3, .running⟩ ∧
      OneSession ps' := by
  have hharmless : (Call.sysSetsid 3).Harmless family := by
    rintro caller ⟨-, hcaller, -⟩ - b q hb ⟨-, hq, -⟩ hgroup
    rw [family_eq hcaller, family_eq hq] at hgroup
    cases hgroup
  obtain ⟨ps, hps, hleader, ps', hps', hchild⟩ :
      ∃ ps ∈ (Call.sysSetsid 3).apply family, ps 3 = some ⟨3, 2, 3, 3, .running⟩ ∧
      ∃ ps' ∈ (Call.sysFork 3).apply ps, ps' 4 = some ⟨4, 3, 3, 3, .running⟩ := by
    decide
  have hlaw := (oneSession_iff_harmless oneSession_family (.nil _) hps).mpr hharmless
  have hrun : Run Call.apply (fun ps call => call.Harmless ps) family [.sysSetsid 3] ps :=
    .snoc (.nil _) hharmless hps
  refine ⟨ps, ps', hrun, hps', hchild, ?_⟩
  refine (oneSession_iff_harmless oneSession_family hrun hps').mpr fun parent hparent _ b q hq
    hgroup => ?_
  cases hleader.symm.trans hparent
  exact hlaw b 3 q _ hq ⟨by decide, hleader, .inl rfl⟩ hgroup

/-- The grandchild opens a session, and its parent joins the group of that session. -/
theorem setpgid_joins_other_session :
    (∀ a b p q, family a = some p → family b = some q → p.pgid = q.pgid → p.sid = q.sid) ∧
    ∃ ps,
      Run Call.apply (fun ps call => call.Names ps) family [.sysSetsid 3, .sysSetpgid 2 2 3] ps ∧
      ¬ OneSession ps := by
  refine ⟨fun a b p q hp hq _ => ?_, Run.exists_of_eval (Q := fun ps =>
    ps 2 = some ⟨2, 1, 3, 1, .running⟩ ∧ ps 3 = some ⟨3, 2, 3, 3, .running⟩) (by decide) ?_⟩
  · rw [family_eq hp, family_eq hq]
  · rintro ps - ⟨hparent, hchild⟩ hlaw
    exact absurd (hlaw 2 3 _ _ ⟨by decide, hparent, .inl rfl⟩ ⟨by decide, hchild, .inl rfl⟩ rfl)
      (by decide)

end CarrotOS.Session
