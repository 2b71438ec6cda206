import CarrotOS.Fs.Create

/-!
# What a rename does to paths

`fat32_rename` copies the source's entry to the first free slot of the destination's directory and
fills the slot of the source with zeros. The copy may stand in a slot that ended the scan of its
cluster, so that entries behind it are found again; the zeros end the scan of theirs, so that
the entries behind the source are lost. The source is looked for three times, each time with another
test. The call does what it should exactly when the three find the source, the copy is found, and
nothing with a cluster is lost or found again.
-/

namespace CarrotOS.Fat32

open Bytes Function LinkTable List Option Vol

variable {g : Geometry} {m : Prop} {d d₁ d' : Disk} {v v₁ v' v'' : Vol} {S : Set ℕ}
  {L : Owner → List ℕ} {e e' : Buf} {r : Option (ℕ × ℕ)} {p q : ℕ × ℕ} {c i j k x : ℕ}
  {t u w : List UInt8} {ts us : List (List UInt8)}

/-! ## Lookups through a slot -/

/-- The lookup of the components from the cluster `c` on finds one of them in a slot with `P`. -/
def Vol.Through (v : Vol) (P : ℕ × ℕ → Prop) : List (List UInt8) → ℕ → Prop
  | [], _ => False
  | t :: ts, c =>
    ∃ j, scanToken (v.data c) t = .hit j ∧
      (P (c, j) ∨ Through v P ts (getEntryCluster (v.slot c j)))

/-- The slot `q` is one in which a scan ends, or comes behind it in its cluster. -/
def Blocked (r : Option (ℕ × ℕ)) (q : ℕ × ℕ) : Prop :=
  ∃ s, r = some s ∧ s.1 = q.1 ∧ s.2 ≤ q.2

/-- Lookups in the directories `S` after a slot `r` has been filled with zeros, if there is one. -/
structure Vol.Erased (S : Set ℕ) (r : Option (ℕ × ℕ)) (v v' : Vol) : Prop where
  back : ∀ c ∈ S, ∀ t j, scanToken (v'.data c) t = .hit j →
    scanToken (v.data c) t = .hit j ∧ SameEntry (v'.slot c j) (v.slot c j)
  keep : ∀ c ∈ S, ∀ t j, scanToken (v.data c) t = .hit j → ¬ Blocked r (c, j) →
    scanToken (v'.data c) t = .hit j
  stop : ∀ c ∈ S, ∀ t j, scanToken (v'.data c) t = .hit j → ¬ Blocked r (c, j)
  dots : ∀ c ∈ S, ∀ j < slotsPerCluster, v.slot c j 0 = dot → v'.slot c j 0 = dot

/-- The entry `e` has been put into the slot `p`, where its name is new, and the slot `r` has been
filled with zeros. -/
structure Vol.Edited (S : Set ℕ) (p : ℕ × ℕ) (e : Buf) (r : Option (ℕ × ℕ)) (v v₁ v' : Vol) :
    Prop where
  placed : Placed S p e v v₁
  new : Placed.NewIn S p e v
  used : e 0 ≠ 0
  erased : Vol.Erased S r v₁ v'

theorem not_blocked_none (q : ℕ × ℕ) : ¬ Blocked none q :=
  fun ⟨_, h, _⟩ => nomatch h

theorem hasToken_of_dot (h : e 0 = dot) (t : List UInt8) : hasToken t e = false := by
  refine Bool.eq_false_iff.mpr fun hhit => matchFormat_head_ne_dot t ?_
  rw [hasToken, Bool.and_eq_true, matchName, beq_iff_eq] at hhit
  rw [← hhit.2]
  exact congrArg some h

namespace Vol

theorem Through.of_tail {P : ℕ × ℕ → Prop} (hscan : scanToken (v.data c) t = .hit j)
    (hnot : ¬ v.Through P (t :: ts) c) :
    ¬ P (c, j) ∧ ¬ v.Through P ts (getEntryCluster (v.slot c j)) :=
  not_or.mp fun h => hnot ⟨j, hscan, h⟩

theorem Through.mono {P Q : ℕ × ℕ → Prop} (hPQ : ∀ q, P q → Q q) (h : v.Through P ts c) :
    v.Through Q ts c := by
  induction ts generalizing c with
  | nil => exact h
  | cons t ts ih =>
    obtain ⟨j, hj, hcase⟩ := h
    exact ⟨j, hj, hcase.imp (hPQ _) ih⟩

theorem Erased.refl (S : Set ℕ) (v : Vol) : Vol.Erased S none v v :=
  ⟨fun _ _ _ _ h => ⟨h, fun _ _ => rfl⟩, fun _ _ _ _ h _ => h, fun _ _ _ _ _ => not_blocked_none _,
    fun _ _ _ _ h => h⟩

theorem erased_setSlot (S : Set ℕ) (v : Vol) (hi : i < slotsPerCluster)
    (hdot : v.slot k i 0 ≠ dot) : Vol.Erased S (some (k, i)) v (v.setSlot k i erased) := by
  constructor
  · exact fun c _ t j => scanToken_erased hi
  · intro c _ t j hscan hfree
    obtain ⟨hj, hat, hprev⟩ := scan_eq_hit_iff.mp hscan
    have hsame : ∀ l ≤ j, SameEntry ((v.setSlot k i erased).slot c l) (v.slot c l) := by
      intro l hl
      refine v.setSlot_slot_of_ne (by omega) fun heq => ?_
      cases heq
      exact hfree ⟨_, rfl, rfl, hl⟩
    refine scan_eq_hit_iff.mpr ⟨hj, ((hsame j le_rfl).tests t).mpr hat, fun l hl => ?_⟩
    exact ((hsame l hl.le).tests t).mpr (hprev l hl)
  · rintro c - t j hscan ⟨_, ⟨⟩, rfl, hle⟩
    obtain ⟨-, hat, hprev⟩ := scan_eq_hit_iff.mp hscan
    have hunused : isUnused ((v.setSlot k i erased).slot k i) = true :=
      local_isUnused _ _ (v.setSlot_slot_self k hi erased)
    rcases Nat.lt_or_eq_of_le hle with hlt | rfl
    · cases hunused.symm.trans (hprev i hlt).1
    · cases hunused.symm.trans hat.1
  · intro c _ j hj hold
    rw [v.setSlot_slot_of_ne hj ?_ 0 (by decide)]
    · exact hold
    · intro heq
      cases heq
      exact hdot hold

/-- Changes of entries that start with a dot are not seen. -/
theorem Erased.trans_dots (h : Vol.Erased S r v v')
    (hsame : ∀ c ∈ S, ∀ j < slotsPerCluster, SameEntry (v''.slot c j) (v'.slot c j) ∨
      v'.slot c j 0 = dot ∧ v''.slot c j 0 = dot) : Vol.Erased S r v v'' := by
  have hscan : ∀ c ∈ S, ∀ t, scanToken (v''.data c) t = scanToken (v'.data c) t := by
    intro c hc t
    refine scan_congr fun j hj => ?_
    rcases hsame c hc j hj with hentry | ⟨hdot, hdot'⟩
    · exact ⟨local_isUnused _ _ hentry, local_hasToken t _ _ hentry⟩
    · refine ⟨?_, (hasToken_of_dot hdot' t).trans (hasToken_of_dot hdot t).symm⟩
      exact congrArg (· == 0) (hdot'.trans hdot.symm)
  constructor
  · intro c hc t j hhit
    rw [hscan c hc] at hhit
    obtain ⟨hold, hentry⟩ := h.back c hc t j hhit
    obtain ⟨hj, hlive, -⟩ := live_of_scanToken hhit
    have hlast := (hsame c hc j hj).resolve_right fun hdot => hlive.2.2.1 hdot.1
    exact ⟨hold, fun l hl => (hlast l hl).trans (hentry l hl)⟩
  · intro c hc t j hhit hfree
    rw [hscan c hc]
    exact h.keep c hc t j hhit hfree
  · intro c hc t j hhit
    rw [hscan c hc] at hhit
    exact h.stop c hc t j hhit
  · intro c hc j hj hold
    have hdot := h.dots c hc j hj hold
    rcases hsame c hc j hj with hentry | ⟨-, hdot'⟩
    · exact (hentry 0 (by decide)).trans hdot
    · exact hdot'

end Vol

/-- What is found after an entry has been put into a slot was found before, unless the slot ended
the scan. -/
theorem Placed.scanToken_back (h : Placed S p e v v₁) (hx : x ∈ S)
    (hscan : scanToken (v₁.data x) t = .hit j) (hne : (x, j) ≠ p) :
    SameEntry (v₁.slot x j) (v.slot x j) ∧
      (scanToken (v.data x) t = .hit j ∨ x = p.1 ∧ p.2 < j ∧ v.slot p.1 p.2 0 = 0) := by
  obtain ⟨hj, hat, hprev⟩ := scan_eq_hit_iff.mp hscan
  have hsame := h.slots x hx j hj hne
  refine ⟨hsame, or_iff_not_imp_right.mpr fun hnot => ?_⟩
  refine scan_eq_hit_iff.mpr ⟨hj, (hsame.tests t).mp hat, fun l hl => ?_⟩
  by_cases hlp : (x, l) = p
  · -- the slot was deleted
    subst hlp
    have hdeleted := (h.here hx).1.resolve_left fun hzero => hnot ⟨rfl, hl, hzero⟩
    rw [show slotFirst (v.data x) l = 0xE5 from hdeleted]
    exact ⟨rfl, rfl⟩
  · exact ((h.slots x hx l (by omega) hlp).tests t).mp (hprev l hl)

namespace Vol.Edited

variable (h : Vol.Edited S p e r v v₁ v')
include h

/-- A component that was found is found in the same slot, or is lost. -/
theorem forward (hc : c ∈ S) (hscan : scanToken (v.data c) t = .hit j) :
    ¬ Blocked r (c, j) ∧ scanToken (v'.data c) t = .hit j ∧ SameEntry (v'.slot c j) (v.slot c j) ∨
      Blocked r (c, j) ∧ ∀ j', scanToken (v'.data c) t ≠ .hit j' := by
  obtain ⟨hmid, hsame⟩ := h.placed.scanToken_hit h.new h.used hc hscan
  by_cases hblocked : Blocked r (c, j)
  · refine .inr ⟨hblocked, fun j' hnew => ?_⟩
    cases hmid.symm.trans (h.erased.back c hc t j' hnew).1
    exact h.erased.stop c hc t j hnew hblocked
  · have hnew := h.erased.keep c hc t j hmid hblocked
    have hsame' := (h.erased.back c hc t j hnew).2
    exact .inl ⟨hblocked, hnew, fun l hl => (hsame' l hl).trans (hsame l hl)⟩

/-- A component that is found elsewhere than in the new entry was found there, or was hidden behind
the slot of the new entry. -/
theorem back (hc : c ∈ S) (hscan : scanToken (v'.data c) t = .hit j) (hne : (c, j) ≠ p) :
    SameEntry (v'.slot c j) (v.slot c j) ∧
      (scanToken (v.data c) t = .hit j ∨ (c = p.1 ∧ p.2 < j ∧ v.slot p.1 p.2 0 = 0) ∧
        scanToken (v₁.data c) t = .hit j) := by
  obtain ⟨hmid, hsame'⟩ := h.erased.back c hc t j hscan
  obtain ⟨hsame, hcase⟩ := h.placed.scanToken_back hc hmid hne
  exact ⟨fun l hl => (hsame' l hl).trans (hsame l hl), hcase.imp_right fun hhidden =>
    ⟨hhidden, hmid⟩⟩

theorem here (hp : p.1 ∈ S) (hscan : scanToken (v'.data p.1) t = .hit p.2) :
    SameEntry (v'.slot p.1 p.2) e := fun l hl =>
  ((h.erased.back p.1 hp t p.2 hscan).2 l hl).trans ((h.placed.here hp).2 l hl)

section Dirs

variable (htidy : Tidy g v S L) (hd : v.Dirs c ts k) (hc : c ∈ S)
include htidy hd hc

theorem dirs (hnot : ¬ v.Through (Blocked r) (cut ts) c) : v'.Dirs c ts k := by
  induction hd with
  | nil => exact .nil
  | @cons c i k t ts hscan hdir hne _ ih =>
    obtain ⟨hfree, htail⟩ := Through.of_tail hscan hnot
    obtain ⟨-, hnew, hsame⟩ := (h.forward hc hscan).resolve_right fun hlost => hfree hlost.1
    have hrest := ih (Dirs.next_mem htidy hc hscan hdir hne) htail
    rw [← hsame.cluster] at hne hrest
    exact .cons hnew (hsame.isDir.mpr hdir) hne hrest

theorem find_of_through (hthrough : v.Through (Blocked r) (cut ts) c) (ws : List (List UInt8)) :
    v'.find (cut ts ++ ws) c = none := by
  induction hd with
  | nil => exact hthrough.elim
  | @cons c i k t ts hscan hdir hne _ ih =>
    obtain ⟨j, hj, hcase⟩ := hthrough
    cases hscan.symm.trans hj
    rw [cut, map_cons, cons_append]
    rcases h.forward hc hscan with ⟨hfree, hnew, hsame⟩ | ⟨-, hlost⟩
    · rw [v'.find_of_hit hnew, hsame.cluster]
      exact ih (Dirs.next_mem htidy hc hscan hdir hne) (hcase.resolve_left hfree)
    · exact find_of_miss hlost

theorem readable (ws : List (List UInt8)) (hrest : v'.Readable g.clusters ws k) :
    v'.Readable g.clusters (cut ts ++ ws) c := by
  induction hd with
  | nil => exact hrest
  | @cons c i k t ts hscan hdir hne _ ih =>
    refine ⟨(htidy.closed _ hc).1, fun j hj => ?_⟩
    rcases h.forward hc hscan with ⟨-, hnew, hsame⟩ | ⟨-, hlost⟩
    · cases hnew.symm.trans hj
      rw [hsame.cluster]
      exact ih (Dirs.next_mem htidy hc hscan hdir hne) hrest
    · exact absurd hj (hlost j)

end Dirs

/-- The directories that were found are not found in the new entry. -/
theorem through_append (htidy : Tidy g v S L) (hd : v.Dirs c ts k) (hc : c ∈ S)
    {ws : List (List UInt8)} (hthrough : v'.Through (· = p) (cut ts ++ ws) c) :
    v'.Through (· = p) ws k := by
  induction hd with
  | nil => exact hthrough
  | @cons c i k t ts hscan hdir hne _ ih =>
    obtain ⟨j, hj, hcase⟩ := hthrough
    rcases h.forward hc hscan with ⟨-, hnew, hsame⟩ | ⟨-, hlost⟩
    · cases hnew.symm.trans hj
      obtain ⟨-, hlive, -⟩ := live_of_scanToken hscan
      have hrest := hcase.resolve_left (h.placed.ne_of_not_free hc hlive.not_free)
      rw [hsame.cluster] at hrest
      exact ih (Dirs.next_mem htidy hc hscan hdir hne) hrest
    · exact absurd hj (hlost j)

/-- **`find_cluster_from_path`** of a path whose directories were found: it goes through them, or
one of them is lost. -/
theorem find_cases (htidy : Tidy g v S L) (hr' : Rep g m d' v') (hd : v.Dirs g.root ts k)
    (hcomps : Components (ts ++ [t])) :
    (v'.Dirs g.root ts k ∧ ¬ v.Through (Blocked r) (cut ts) g.root ∧
      ∀ junk, findClusterFromPath g.part junk d' (pathOf (ts ++ [t])) =
        (v'.find [t.take (direntNameMaxLength - 1)] k).getD 0) ∨
    v.Through (Blocked r) (cut ts) g.root ∧
      ∀ junk, findClusterFromPath g.part junk d' (pathOf (ts ++ [t])) = 0 := by
  have hhead := pathOf_snoc_head ts t
  have hk := (htidy.closed k (hd.mem htidy htidy.root_mem)).1
  have hread := h.readable htidy hd htidy.root_mem
    [t.take (direntNameMaxLength - 1)] ⟨hk, fun _ _ => trivial⟩
  rw [← tokens_pathOf_snoc hcomps] at hread
  have hfind : ∀ junk, findClusterFromPath g.part junk d' (pathOf (ts ++ [t])) =
      (v'.find (cut ts ++ [t.take (direntNameMaxLength - 1)]) g.root).getD 0 := by
    intro junk
    rw [hr'.findClusterFromPath_eq (fun _ => hread), resolve, if_pos hhead,
      tokens_pathOf_snoc hcomps]
  by_cases hthrough : v.Through (Blocked r) (cut ts) g.root
  · refine .inr ⟨hthrough, fun junk => ?_⟩
    rw [hfind, h.find_of_through htidy hd htidy.root_mem hthrough, getD_none]
  · have hdirs := h.dirs htidy hd htidy.root_mem hthrough
    refine .inl ⟨hdirs, hthrough, fun junk => ?_⟩
    rw [hfind, hdirs.find_append]

/-- A component that is not found leads nowhere, whatever became of the directories before it. -/
theorem find_missing (htidy : Tidy g v S L) (hr' : Rep g m d' v') (hd : v.Dirs g.root ts k)
    (hcomps : Components (ts ++ [t]))
    (hmiss : ∀ j, scanToken (v'.data k) (t.take (direntNameMaxLength - 1)) ≠ .hit j)
    (junk : ℕ → Buf) : findClusterFromPath g.part junk d' (pathOf (ts ++ [t])) = 0 := by
  rcases h.find_cases htidy hr' hd hcomps with ⟨-, -, hfind⟩ | ⟨-, hfind⟩
  · rw [hfind, find_of_miss hmiss, getD_none]
  · exact hfind junk

end Vol.Edited

/-- The lookup goes on with what is in uninitialised memory. -/
theorem Rep.findClusterLoop_append (h : Rep g m d v) (hread : v.Readable g.clusters ts c)
    (hfind : v.find ts c = some k) (us : List (List UInt8)) (b : Buf) :
    findClusterLoop g.part d (ts ++ us) c (fun _ => b) =
      findClusterLoop g.part d us k fun _ => b := by
  induction ts generalizing c with
  | nil =>
    cases hfind
    rfl
  | cons t ts ih =>
    obtain ⟨i, hscan, hrest⟩ := v.find_cons_eq_some hfind
    have hsame := h.readCluster_same hread.1.1 hread.1.2 b
    rw [cons_append, findClusterLoop, hsame.scanToken t, hscan]
    dsimp only
    rw [(hsame.slot (live_of_scanToken hscan).1).cluster]
    exact ih (hread.2 i hscan) hrest

/-! ## Directories form a tree -/

namespace Vol.Dirs

theorem of_through (hd : v.Dirs c ts k) {P : ℕ × ℕ → Prop} (hthrough : v.Through P (cut ts) c) :
    ∃ (us : List (List UInt8)) (q : ℕ × ℕ), us.length < ts.length ∧ v.Dirs c us q.1 ∧ P q := by
  induction hd with
  | nil => exact hthrough.elim
  | @cons c i k t ts hscan hdir hne _ ih =>
    obtain ⟨j, hj, hcase⟩ := hthrough
    cases hscan.symm.trans hj
    rcases hcase with hhere | hrest
    · exact ⟨[], (c, i), Nat.succ_pos _, .nil, hhere⟩
    · obtain ⟨us, q, hlen, hus, hq⟩ := ih hrest
      exact ⟨t :: us, q, Nat.succ_lt_succ hlen, .cons hscan hdir hne hus, hq⟩

theorem leads_append (hd : v.Dirs c ts k) {P : Buf → Prop} {ws : List (List UInt8)} (hws : ws ≠ [])
    (hlead : v.Leads P ws k) : v.Leads P (cut ts ++ ws) c := by
  induction hd with
  | nil => exact hlead
  | @cons c i k t ts hscan hdir hne _ ih =>
    intro j hj
    cases hscan.symm.trans hj
    exact (if_neg (append_ne_nil_of_right_ne_nil _ hws)).mpr ⟨hdir, hne, ih hlead⟩

theorem through_append (hd : v.Dirs c ts k) {P : ℕ × ℕ → Prop} {ws : List (List UInt8)}
    (hthrough : v.Through P (cut ts ++ ws) c) : v.Through P (cut ts) c ∨ v.Through P ws k := by
  induction hd with
  | nil => exact .inr hthrough
  | @cons c i k t ts hscan hdir hne _ ih =>
    obtain ⟨j, hj, hcase⟩ := hthrough
    cases hscan.symm.trans hj
    rcases hcase with hhere | hrest
    · exact .inl ⟨i, hscan, .inl hhere⟩
    · exact (ih hrest).imp_left fun hdirs => ⟨i, hscan, .inr hdirs⟩

theorem of_snoc (hd : v.Dirs c (ts ++ [t]) k) :
    ∃ x j, v.Dirs c ts x ∧ scanToken (v.data x) (t.take (direntNameMaxLength - 1)) = .hit j ∧
      IsSubdir (v.slot x j) ∧ getEntryCluster (v.slot x j) = k := by
  induction ts generalizing c with
  | nil =>
    cases hd with
    | cons hscan hdir hne hrest =>
      cases hrest
      exact ⟨c, _, .nil, hscan, ⟨hdir, hne⟩, rfl⟩
  | cons t' ts ih =>
    cases hd with
    | cons hscan hdir hne hrest =>
      obtain ⟨x, j, hd', hlast⟩ := ih hrest
      exact ⟨x, j, .cons hscan hdir hne hd', hlast⟩

end Vol.Dirs

section Depth

variable (h : Tidy g v S L) (hd : v.Dirs g.root ts k)
include h

theorem Tidy.owner_unique {o o' : Owner} (ho : o.In S v) (ho' : o'.In S v) (hx : x ∈ L o)
    (hx' : x ∈ L o') : o = o' := by
  by_contra hne
  exact h.family.disjoint o o' ho ho' hne x hx hx'

theorem Tidy.owner_of_scanToken (hx : x ∈ S) (hscan : scanToken (v.data x) t = .hit j)
    (hne : getEntryCluster (v.slot x j) ≠ 0) :
    (Owner.slot x j).In S v ∧ getEntryCluster (v.slot x j) ∈ L (.slot x j) := by
  have hin := Tidy.in_of_scanToken hx hscan
  exact ⟨hin, (h.linked_slot hin hne).mem_self⟩

/-- Two entries do not have the same first cluster. -/
theorem Tidy.slot_unique {y x' y' : ℕ} (ho : (Owner.slot x y).In S v)
    (ho' : (Owner.slot x' y').In S v)
    (hsame : getEntryCluster (v.slot x y) = getEntryCluster (v.slot x' y'))
    (hne : getEntryCluster (v.slot x' y') ≠ 0) : (x, y) = (x', y') := by
  have hmem := (h.linked_slot ho fun hzero => hne (hsame.symm.trans hzero)).mem_self
  rw [hsame] at hmem
  cases h.owner_unique ho ho' hmem (h.linked_slot ho' hne).mem_self
  rfl

theorem Tidy.root_mem_list : g.root ∈ L .root := by
  cases h.family.lists .root trivial with
  | linked hl => exact hl.mem_self

include hd

/-- **Paths to the same directory have the same length.** -/
theorem Vol.Dirs.length_unique (hd' : v.Dirs g.root us k) : ts.length = us.length := by
  -- the chain of the directory has one owner, in the slot where both paths end
  induction ts using reverseRecOn generalizing k us with
  | nil =>
    cases hd
    rcases eq_nil_or_concat us with rfl | ⟨us, u, rfl⟩
    · rfl
    · rw [concat_eq_append] at hd'
      obtain ⟨x, j, hus, hscan, hsub, hroot⟩ := hd'.of_snoc
      obtain ⟨hin, hmem⟩ := h.owner_of_scanToken (hus.mem h h.root_mem) hscan hsub.2
      rw [hroot] at hmem
      cases h.owner_unique (o := .root) trivial hin h.root_mem_list hmem
  | append_singleton ts t ih =>
    obtain ⟨x, j, hts, hscan, hsub, rfl⟩ := hd.of_snoc
    obtain ⟨hin, hmem⟩ := h.owner_of_scanToken (hts.mem h h.root_mem) hscan hsub.2
    rcases eq_nil_or_concat us with rfl | ⟨us, u, rfl⟩
    · generalize hroot : getEntryCluster (v.slot x j) = k at hd' hmem
      cases hd'
      cases h.owner_unique (o := .root) trivial hin h.root_mem_list hmem
    · rw [concat_eq_append] at hd'
      obtain ⟨x', j', hus, hscan', hsub', hsame⟩ := hd'.of_snoc
      obtain ⟨hin', hmem'⟩ := h.owner_of_scanToken (hus.mem h h.root_mem) hscan' hsub'.2
      rw [hsame] at hmem'
      cases h.owner_unique hin hin' hmem hmem'
      rw [concat_eq_append, length_append, length_append, ih hts hus]
      rfl

theorem Vol.Dirs.owner : ∃ o : Owner, o.In S v ∧ o.Dir v ∧ o.head g.root v = some k := by
  rcases eq_nil_or_concat ts with rfl | ⟨ts, t, rfl⟩
  · cases hd
    exact ⟨.root, trivial, trivial, rfl⟩
  · rw [concat_eq_append] at hd
    obtain ⟨x, j, hts, hscan, hsub, rfl⟩ := hd.of_snoc
    exact ⟨.slot x j, Tidy.in_of_scanToken (hts.mem h h.root_mem) hscan, hsub.1, start_of_ne hsub.2⟩

/-- A directory on the way to `k` is no further cluster of `k`. -/
theorem Vol.Dirs.head_unique (hd' : v.Dirs g.root us x) (hreach : Reaches v.next k x) : x = k := by
  obtain ⟨o, ho, hod, hhead⟩ := hd.owner h
  obtain ⟨o', ho', hod', hhead'⟩ := hd'.owner h
  have hmem := (h.head_mem ho hod hhead).2.mem_iff_reaches.mpr hreach
  have hmem' := (h.head_mem ho' hod' hhead').2.mem_self
  cases h.owner_unique ho ho' hmem hmem'
  exact some.inj (hhead'.symm.trans hhead)

/-- **The way to a directory** goes neither through a slot of it nor through one of a further
cluster. -/
theorem Vol.Dirs.not_through {P : ℕ × ℕ → Prop} (hP : ∀ q, P q → Reaches v.next k q.1) :
    ¬ v.Through P (cut ts) g.root := by
  intro hthrough
  obtain ⟨us, q, hlen, hus, hq⟩ := hd.of_through hthrough
  have hk := hd.head_unique h hus (hP q hq)
  rw [hk] at hus
  have := hd.length_unique h hus
  omega

end Depth

/-! ## The steps of the call -/

/-- A walk along the FAT from a cluster of `S` stays in `S`, or comes to cluster 0 or 1. -/
def Vol.Walkable (n : ℕ) (v : Vol) (S : Set ℕ) : Prop :=
  ∀ c ∈ S, (2 ≤ c ∧ c < n) ∧ (v.follow c < 2 ∨ v.follow c ∈ S ∧ v.next c = some (v.follow c))

theorem Vol.Closed.walkable {n : ℕ} (h : v.Closed n S) : v.Walkable n S := by
  intro c hc
  refine ⟨(h c hc).1, ?_⟩
  rcases h.follow hc with ⟨-, hzero⟩ | ⟨c', hc', hn, hfollow⟩
  · rw [hzero]
    exact .inl (by decide)
  · rw [hfollow]
    exact .inr ⟨hc', hn⟩

section Steps

variable {fuel : ℕ} {attr : UInt8} {name : List UInt8} {buf : Buf} {env : FatEnv}
  {rootError refusedError : ℤ} {refused : PathType}

/-- **The walk of the second lookup** fills at most one slot with zeros. -/
theorem editEntry_erased (h : Rep g m d v) (hS : v.Walkable g.clusters S) {wk : Walk}
    (hc : c < 2 ∨ c ∈ S)
    (hrun : editEntry g.part attr name (fun _ => erased) d fuel c buf = some (d', wk)) :
    d' = d ∨ 2 ≤ c ∧ ∃ k i, Reaches v.next c k ∧ scanEntry attr name (v.data k) = .hit i ∧
      Rep g m d' (v.setSlot k i erased) := by
  induction fuel generalizing c buf with
  | zero => cases hrun
  | succ fuel ih =>
    rw [editEntry] at hrun
    by_cases hc2 : c < 2
    · rw [if_pos hc2] at hrun
      cases hrun
      exact .inl rfl
    · obtain ⟨⟨hle, hcn⟩, hnext⟩ := hS c (hc.resolve_left hc2)
      have hsame := h.readCluster_same hle hcn buf
      rw [if_neg hc2] at hrun
      dsimp only at hrun
      rw [hsame.scanEntry] at hrun
      rcases hscan : scanEntry attr name (v.data c) with - | i | -
      · rw [hscan] at hrun
        cases hrun
        exact .inl rfl
      · rw [hscan] at hrun
        cases hrun
        exact .inr ⟨hle, c, i, .refl, hscan, h.writeSlot_rep hle hcn hsame i _⟩
      · rw [hscan] at hrun
        rw [h.getNextCluster_eq hcn] at hrun
        refine (ih (hnext.imp_right And.left) hrun).imp_right ?_
        rintro ⟨hle', k, i, hreach, hrest⟩
        exact ⟨hle, k, i, .head (hnext.resolve_left (by omega)).2 hreach, hrest⟩

/-- **The removal of the source**, with the attribute 0x0F in all uninitialised entries: nothing
changes, or a slot is filled with zeros. -/
theorem removeEntry_longNames (h : Rep g m d v) (hS : v.Walkable g.clusters S) (hk : k ∈ S)
    (hcomps : Components (ts ++ [t]))
    (hfind : ∀ junk, findClusterFromPath g.part junk d (parentPath (pathOf (ts ++ [t]))) = k)
    {out : Disk × ℤ}
    (hrun : removeEntry g.part rootError refused refusedError attr ⟨fuel, fun _ _ => longNames⟩ d
      (pathOf (ts ++ [t])) = some out) :
    out.1 = d ∨ ∃ s : ℕ × ℕ, t.length ≤ 11 ∧ (scanStat t (v.data k) = .exhausted ∨
        ∃ j, scanStat t (v.data k) = .hit j ∧
          (if v.slot k j 11 = 0x10 then PathType.directory else .file) ≠ refused) ∧
      Reaches v.next k s.1 ∧ scanEntry attr (formatName83 t) (v.data s.1) = .hit s.2 ∧
      Rep g m out.1 (v.setSlot s.1 s.2 erased) := by
  rw [removeEntry, if_neg (not_not.mpr (pathOf_snoc_head ts t)), if_neg (hcomps.pathOf_ne)] at hrun
  obtain ⟨st, hst, hrun⟩ := bind_eq_some_iff.mp hrun
  rcases fat32Stat_longNames h (hS k hk).1 hcomps hfind hst with
    rfl | ⟨hlen, hname, hparent, hscan⟩
  · rw [if_pos rfl] at hrun
    cases hrun
    exact .inl rfl
  · split at hrun
    · cases hrun
      exact .inl rfl
    split at hrun
    · cases hrun
      exact .inl rfl
    rename_i htype
    obtain ⟨⟨d2, wk⟩, hwalk, rfl⟩ := map_eq_some_iff.mp hrun
    rw [hname, hparent] at hwalk
    refine (editEntry_erased h hS (.inr hk) hwalk).imp_right ?_
    rintro ⟨-, x, y, hreach, hentry, hrep⟩
    refine ⟨(x, y), hlen, hscan.imp_right ?_, hreach, hentry, hrep⟩
    rintro ⟨j, hj, hst⟩
    exact ⟨j, hj, hst ▸ htype⟩

/-- The source is removed by the first turns of both loops. -/
theorem removeEntry_hit (rootError refusedError : ℤ) (env : FatEnv) (h : Rep g m d v)
    (hk : 2 ≤ k ∧ k < g.clusters) (hcomps : Components (ts ++ [t]))
    (hfind : ∀ junk, findClusterFromPath g.part junk d (parentPath (pathOf (ts ++ [t]))) = k)
    (hlen : t.length ≤ 11) (hstat : scanStat t (v.data k) = .hit j)
    (htype : (if v.slot k j 11 = 0x10 then PathType.directory else .file) ≠ refused)
    (hentry : scanEntry attr (formatName83 t) (v.data k) = .hit i) (hfuel : 0 < env.fuel) :
    ∃ out, removeEntry g.part rootError refused refusedError attr env d (pathOf (ts ++ [t])) =
        some out ∧ Rep g m out.1 (v.setSlot k i erased) := by
  have hsame := h.readCluster_same hk.1 hk.2 (env.junk 1 0)
  obtain ⟨n, hn⟩ := Nat.exists_eq_succ_of_ne_zero hfuel.ne'
  rw [removeEntry, if_neg (not_not.mpr (pathOf_snoc_head ts t)), if_neg (hcomps.pathOf_ne),
    fat32Stat_hit h hk hcomps hfind hlen hstat hfuel, bind_some]
  dsimp only
  rw [if_neg (by split <;> simp), if_neg htype, hn, editEntry, if_neg (Nat.not_lt.mpr hk.1)]
  dsimp only
  rw [hsame.scanEntry, hentry]
  exact ⟨_, rfl, h.writeSlot_rep hk.1 hk.2 hsame i erased⟩

/-- **Where the copy goes**: to the first cluster of the directory, or to a place where the lookup
of a path does not see it. -/
theorem placeEntry_placed (hr : Rep g m d v) (h : Tidy g v S L) (hd : v.Dirs g.root ts k)
    {place : FreeSlot} (hrun : findFreeSlot g.part d fuel k k buf = some place) (e : Buf) :
    ∃ p v₁ S₁, Rep g False (placeEntry g.part d e place) v₁ ∧ Placed S p e v v₁ ∧ S ⊆ S₁ ∧
      v₁.Walkable g.clusters S₁ ∧ (p.1 ∈ S → Reaches v.next k p.1) ∧
      (p.1 = k → scanFree (v.data k) = .hit p.2 ∧ v₁ = v.setSlot k p.2 e) := by
  have hkS := hd.mem h h.root_mem
  have hr := hr.mono False.elim
  rcases findFreeSlot_spec hr h.closed hkS hrun with ⟨x, y, b, hsearch, hb, rfl⟩ | ⟨z, hsearch, rfl⟩
  · obtain ⟨hreach, hscan⟩ := hsearch.at_spec
    obtain ⟨hy, hfree⟩ := isFree_of_scanFree hscan
    obtain ⟨⟨hx2, hxn⟩, -⟩ := h.closed x (h.closed.reaches hkS hreach)
    refine ⟨(x, y), v.setSlot x y e, S, hr.writeSlot_rep hx2 hxn hb y e, .of_setSlot S hy hfree e,
      subset_rfl, h.closed.walkable, fun _ => hreach, ?_⟩
    rintro rfl
    exact ⟨hscan, rfl⟩
  · obtain ⟨o, ho, hod, hhead⟩ := hd.owner h
    obtain ⟨-, hlink⟩ := h.head_mem ho hod hhead
    obtain ⟨hzn, hlast⟩ := h.last_of_absent ho hlink hsearch
    have hend := hsearch.absent_spec.2.1
    rw [placeEntry, hr.findBlankCluster_eq]
    rcases v.blank_cases g.clusters with ⟨hzero, -⟩ | ⟨hb2, hbn, hbfree⟩
    · -- no cluster is left, and the last one of the directory is linked to cluster 0
      have hzS := h.zero_not_mem
      have hfat : ∀ x ∈ S, x ≠ z → ((v.setFat z 0).setFat 0 0x0FFFFFFF).fat x = v.fat x := by
        intro x hx hxz
        exact (update_of_ne (ne_of_mem_of_not_mem hx hzS) _ _).trans (update_of_ne hxz _ _)
      rw [hzero, Rep.writeCluster_of_lt _ _ (by decide)]
      refine ⟨(0, 0), _, S, hr.extendDirentCluster_zero hzn, ⟨?_, fun _ _ _ _ _ _ _ => rfl,
        fun hmem => absurd hmem hzS⟩, subset_rfl, ?_, fun hmem => absurd hmem hzS, ?_⟩
      · intro x hx y hy
        rw [Vol.next, hfat x hx (by rintro rfl; cases hend.symm.trans hy)]
        exact hy
      · intro x hx
        refine ⟨(h.closed x hx).1, ?_⟩
        by_cases hxz : x = z
        · subst hxz
          have hnew : ((v.setFat x 0).setFat 0 0x0FFFFFFF).fat x = 0 :=
            (update_of_ne (ne_of_mem_of_not_mem hx hzS) _ _).trans (update_self ..)
          rw [follow_of_next_some _ (next_of_zero hnew)]
          exact .inl (by decide)
        · rw [Vol.next, follow, hfat x hx hxz]
          exact (h.closed.walkable x hx).2
      · rintro rfl
        exact absurd hkS hzS
    · have hbS := (h.not_mem_of_free hbfree).1
      have hext := h.extendDir ho hod hlast ⟨hb2, hbn⟩ hbfree
      refine ⟨(v.blank g.clusters, 0), _, Insert.insert (v.blank g.clusters) S,
        (hr.extendDirentCluster_rep hzn hb2 hbn).writeSlot_rep hb2 hbn (v.extended_same z _) 0 e,
        .of_extended hend hbS e, Set.subset_insert _ S, hext.closed.walkable,
        fun hmem => absurd hmem hbS, ?_⟩
      rintro rfl
      exact absurd hkS hbS

end Steps

/-- While the copy is in its slot, directories are found as before. -/
theorem Vol.Edited.find_parent (hcopy : Vol.Edited S p e none v v₁ v₁) (h : Tidy g v S L)
    (hr₁ : Rep g m d₁ v₁) (hd : v.Dirs g.root ts k) (hcomps : Components (ts ++ [t]))
    (junk : ℕ → Buf) :
    findClusterFromPath g.part junk d₁ (parentPath (pathOf (ts ++ [t]))) = k := by
  have hdirs := hcopy.dirs h hd h.root_mem
    (hd.not_through h fun q hq => absurd hq (not_blocked_none q))
  have hread := hcopy.readable h hd h.root_mem [] trivial
  rw [append_nil] at hread
  exact hdirs.find_parent_of_readable hr₁ hread hcomps junk

/-- **The end of the call for a directory** changes an entry that starts with a dot, or nothing that
a lookup reads. -/
theorem Vol.Edited.parent (h : Vol.Edited S p e r v v₁ v') (htidy : Tidy g v S L)
    (hr' : Rep g m d' v') (hd : v.Dirs g.root ts k) (hcomps : Components (ts ++ [t]))
    (hcopy : Live e → ∃ x y, (Owner.slot x y).In S v ∧
      getEntryCluster e = getEntryCluster (v.slot x y)) (junk : ℕ → Buf) (parent : ℕ) :
    ∃ v'', Rep g m (setParentEntry g.part junk d' (pathOf (ts ++ [t])) parent) v'' ∧
      Vol.Edited S p e r v v₁ v'' := by
  have hkS := hd.mem htidy htidy.root_mem
  rw [setParentEntry]
  generalize hf : findClusterFromPath g.part (fun n => junk (n + 1)) d' (pathOf (ts ++ [t])) = f
  -- the destination leads nowhere or to the cluster of an entry of the volume before
  have hcase : f = 0 ∨ ∃ x y, (Owner.slot x y).In S v ∧ f = getEntryCluster (v.slot x y) := by
    by_cases hhit : ∃ j, scanToken (v'.data k) (t.take (direntNameMaxLength - 1)) = .hit j
    · obtain ⟨j, hj⟩ := hhit
      obtain ⟨hlt, hlive, -⟩ := live_of_scanToken hj
      rcases h.find_cases htidy hr' hd hcomps with ⟨-, -, hfind⟩ | ⟨-, hfind⟩
      · rw [← hf, hfind, v'.find_of_hit hj]
        by_cases hp : (k, j) = p
        · subst hp
          have hsame : SameEntry (v'.slot k j) e := h.here hkS hj
          obtain ⟨x, y, hin, hcluster⟩ := hcopy (hsame.live.mp hlive)
          exact .inr ⟨x, y, hin, hsame.cluster.trans hcluster⟩
        · have hsame := (h.back hkS hj hp).1
          exact .inr ⟨k, j, ⟨hkS, hlt, hsame.live.mp hlive⟩, hsame.cluster⟩
      · exact .inl (hf ▸ hfind _)
    · exact .inl (hf ▸ h.find_missing htidy hr' hd hcomps (not_exists.mp hhit) _)
  by_cases hzero : f = 0
  · rw [hzero, Rep.writeCluster_of_lt _ _ (by decide)]
    exact ⟨v', hr', h⟩
  · obtain ⟨x, y, hin, rfl⟩ := hcase.resolve_left hzero
    have hmem := (htidy.linked_slot hin hzero).mem_self
    obtain ⟨hf2, hfn⟩ := htidy.range _ hin _ hmem
    have hsame := hr'.readCluster_same hf2 hfn (junk 0)
    refine ⟨_, hr'.writeSlot_rep hf2 hfn hsame 1 _, h.placed, h.new, h.used, h.erased.trans_dots ?_⟩
    intro c hc j hj
    by_cases heq : (c, j) = (getEntryCluster (v.slot x y), 1)
    · obtain ⟨rfl, rfl⟩ := Prod.mk.inj heq
      have hdir : IsDir (v.slot x y) := by
        by_contra hfile
        exact htidy.files _ hin hfile _ hmem hc
      have hdot := htidy.dots x y hin hdir hzero
      have hne : (getEntryCluster (v.slot x y), 1) ≠ p := by
        rintro rfl
        exact (h.placed.here hc).1.ne_dot hdot
      have hdot' :=
        h.erased.dots _ hc 1 hj ((h.placed.slots _ hc 1 hj hne 0 (by decide)).trans hdot)
      refine .inr ⟨hdot', ?_⟩
      rw [v'.setSlot_slot_self _ hj _ 0 (by decide), withCluster_of_lt _ _ (by decide),
        hsame.slot hj 0 (by decide)]
      exact hdot'
    · exact .inl (v'.setSlot_slot_of_ne hj heq)

/-! ## Renaming moves one entry -/

/-- The directories `ts` lead to the cluster `k`, where the component `t` is not found, and no entry
in use of the directory has its 8.3 name. -/
structure Vol.Missing (root : ℕ) (v : Vol) (ts : List (List UInt8)) (t : List UInt8) (k : ℕ) :
    Prop where
  comps : Components (ts ++ [t])
  text : 0 ∉ t
  dirs : v.Dirs root ts k
  missing : ∀ j, scanToken (v.data k) (t.take (direntNameMaxLength - 1)) ≠ .hit j
  fresh : ∀ c, Reaches v.next k c → ∀ j < slotsPerCluster, Live (v.slot c j) →
    cells 11 (v.slot c j) ≠ formatName83 t

/-- The entry has been moved from the slot `s` to the slot `p`: the destination leads to it, the
source nowhere, and every other path through directories where it did. -/
structure Renamed (g : Geometry) (d d' : Disk) (ts : List (List UInt8)) (t : List UInt8)
    (ts' : List (List UInt8)) (t' : List UInt8) (s p : ℕ × ℕ) : Prop where
  found : (vol g d').PathTo g.root ts' t' p.1 p.2
  resolves : ∀ junk, findClusterFromPath g.part junk d' (pathOf (ts' ++ [t'])) =
    getEntryCluster ((vol g d).slot s.1 s.2)
  attr : (vol g d').slot p.1 p.2 11 = (vol g d).slot s.1 s.2 11
  size : fileSize ((vol g d').slot p.1 p.2) = fileSize ((vol g d).slot s.1 s.2)
  gone : ∀ junk, findClusterFromPath g.part junk d' (pathOf (ts ++ [t])) = 0
  others : ∀ path, (vol g d).Leads (fun _ => True) (tokens path) g.root →
    ¬ (vol g d).Through (· = s) (tokens path) g.root →
    ¬ (vol g d').Through (· = p) (tokens path) g.root →
    ∀ junk junk', findClusterFromPath g.part junk' d' path = findClusterFromPath g.part junk d path

/-- The volume with a copy of the entry in the slot `s`, under the name `t`, in the slot `p`. -/
def Vol.copy (v : Vol) (t : List UInt8) (s p : ℕ × ℕ) : Vol :=
  v.setSlot p.1 p.2 (renamed (formatName83 t) (v.slot s.1 s.2))

/-- What `fat32_rename` needs to move the entry in the slot `s`, of the name `t`, to the slot `p`
under the name `t'`, where `ts'` lead. -/
structure Vol.Moves (root : ℕ) (v : Vol) (isDir : Bool) (t : List UInt8) (s : ℕ × ℕ)
    (ts' : List (List UInt8)) (t' : List UInt8) (p : ℕ × ℕ) : Prop where
  /-- The last entry with the 8.3 name of the source is the source. -/
  source : scanName (formatName83 t) (v.data s.1) = .hit s.2
  /-- The source has the attribute with which it is removed. -/
  attr : v.slot s.1 s.2 11 = moveAttr isDir
  /-- `fat32_stat` finds an entry of the same kind, the copy being in its slot. -/
  length : t.length ≤ 11
  stat : ∃ j, scanStat t ((v.copy t' s p).data s.1) = .hit j ∧
    ((v.copy t' s p).slot s.1 j 11 = 0x10 ↔ isDir)
  /-- The copy goes to the first cluster of its directory and is found there. -/
  room : scanFree (v.data p.1) = .hit p.2
  name : matchFormat t' = formatName83 t'
  first : (formatName83 t').head? ≠ some 0xE5
  ahead : p.1 = s.1 → p.2 < s.2
  /-- The destination does not lead through the source or an entry behind it. -/
  outside : ¬ v.Through (Blocked (some s)) (cut ts') root
  /-- Nothing with a cluster is lost behind the source. -/
  lost : ∀ u, u ≠ [] → slash ∉ u → ∀ j, s.2 < j →
    scanToken (v.data s.1) (u.take (direntNameMaxLength - 1)) = .hit j →
    getEntryCluster (v.slot s.1 j) = 0
  /-- Nothing is found again behind the copy. -/
  shown : v.slot p.1 p.2 0 = 0 → ∀ u, u ≠ [] → slash ∉ u → ∀ j, p.2 < j →
    scanToken ((v.copy t' s p).data p.1) (u.take (direntNameMaxLength - 1)) ≠ .hit j

/-- What a call of `fat32_rename` leaves behind if all uninitialised entries have the attribute
0x0F: the entry `e` in the slot `p`, and the slot `r` filled with zeros. -/
structure Vol.Outcome (S : Set ℕ) (v : Vol) (isDir : Bool) (t : List UInt8) (k : ℕ)
    (t' : List UInt8) (k' : ℕ) (e : Buf) (p : ℕ × ℕ) (r : Option (ℕ × ℕ)) (v₁ v' : Vol) : Prop where
  edited : Vol.Edited S p e r v v₁ v'
  name : cells 11 e = formatName83 t'
  source : Live e → ∃ x y, (Owner.slot x y).In S v ∧ Reaches v.next k x ∧
    scanName (formatName83 t) (v.data x) = .hit y ∧
    SameEntry e (renamed (formatName83 t') (v.slot x y))
  room : p.1 = k' → scanFree (v.data k') = .hit p.2 ∧ v₁ = v.setSlot k' p.2 e
  removed : ∀ s, r = some s → t.length ≤ 11 ∧ (scanStat t (v₁.data k) = .exhausted ∨
      ∃ j, scanStat t (v₁.data k) = .hit j ∧ (v₁.slot k j 11 = 0x10 ↔ isDir)) ∧
    Reaches v₁.next k s.1 ∧
    scanEntry (moveAttr isDir) (formatName83 t) (v₁.data s.1) = .hit s.2

section Main

variable {isDir : Bool} {k' fuel : ℕ} {t' : List UInt8} {ts' : List (List UInt8)}

/-- The entry that is copied: one of the volume, if the copy is in use. -/
theorem copied_source (hr : Rep g m d v) (h : Tidy g v S L) (hsrc : v.PathTo g.root ts t k i)
    {source : Option Buf} {buf : Buf}
    (hrun : findSource g.part d (formatName83 t) fuel k buf = some source) (name : List UInt8)
    (hlive : Live (renamed name (source.getD longNames))) :
    ∃ x y, (Owner.slot x y).In S v ∧ Reaches v.next k x ∧
      scanName (formatName83 t) (v.data x) = .hit y ∧
      SameEntry (renamed name (source.getD longNames)) (renamed name (v.slot x y)) := by
  have hkS := hsrc.dirs.mem h h.root_mem
  have hattr := hlive.2.2.2
  rw [renamed_of_le _ _ le_rfl] at hattr
  rcases findSource_spec hr h.closed hkS hrun with ⟨x, y, s, hsearch, hs, rfl⟩ | ⟨z, -, rfl⟩
  · obtain ⟨hreach, hscan⟩ := hsearch.at_spec
    obtain ⟨hy, hname⟩ := scanName_hit hscan
    -- it starts like the source, which is in use
    have hfirst : v.slot x y 0 = v.slot k i 0 := hsrc.first hname
    have hin := (live_of_scanToken hsrc.found).2.1
    refine ⟨x, y, ⟨h.closed.reaches hkS hreach, hy, ?_⟩, hreach, hscan, hs.blit 0 11 _⟩
    rw [getD_some, hs 11 (by decide)] at hattr
    rw [Live, hfirst]
    exact ⟨hin.1, hin.2.1, hin.2.2.1, hattr⟩
  · exact absurd rfl hattr

theorem moveAttr_ne (isDir : Bool) : moveAttr isDir ≠ 0x0F ∧ moveAttr isDir ≠ 0xE5 := by
  cases isDir <;> decide

/-- An entry before the source with its name would have been found. -/
theorem Vol.PathTo.attr_of_before (hsrc : v.PathTo g.root ts t k i)
    (hname : cells 11 (v.slot k i) = formatName83 t) (hlt : j < i)
    (hjname : cells 11 (v.slot k j) = formatName83 t) : v.slot k j 11 = 0x0F := by
  obtain ⟨-, hlive, htoken⟩ := live_of_scanToken hsrc.found
  by_contra hattr
  have hhit : hasToken (t.take (direntNameMaxLength - 1)) (v.slot k j) = true := by
    rw [hasToken, Bool.and_eq_true, Bool.and_eq_true, bne_iff_ne, bne_iff_ne, matchName, beq_iff_eq,
      hsrc.first hjname, hjname]
    exact ⟨⟨hlive.2.1, hattr⟩, hname.symm.trans htoken⟩
  cases hhit.symm.trans ((scan_eq_hit_iff.mp hsrc.found).2.2 j hlt).2

theorem ne_refused_iff {attr : UInt8} :
    (if attr = 0x10 then PathType.directory else .file) ≠
      (if isDir then PathType.file else .directory) ↔ (attr = 0x10 ↔ isDir) := by
  by_cases hdir : attr = 0x10 <;> cases isDir <;> simp [hdir]

/-- The error of a removal that is refused. -/
def moveError (isDir : Bool) : ℤ := if isDir then eInvalArg else eIsdir

theorem fat32Rename_eq (hr : Rep g m d v) (h : Tidy g v S L) (hsrc : v.PathTo g.root ts t k i)
    (hdes : v.Missing g.root ts' t' k') (env : FatEnv) :
    fat32Rename g.part env d (pathOf (ts ++ [t])) (pathOf (ts' ++ [t'])) isDir =
      (findSource g.part d (formatName83 t) env.fuel k (env.junk 1 0)).bind fun source =>
      (findFreeSlot g.part d env.fuel k' k' (env.junk 3 0)).bind fun place =>
      (removeEntry g.part (moveError isDir) (if isDir then .file else .directory) (moveError isDir)
        (moveAttr isDir) { env with junk := fun n => env.junk (n + 5) }
        (placeEntry g.part d (renamed (formatName83 t') (source.getD (env.junk 1 1))) place)
        (pathOf (ts ++ [t]))).map fun out =>
          if isDir then setParentEntry g.part (env.junk 4) out.1 (pathOf (ts' ++ [t'])) k'
          else out.1 := by
  rw [fat32Rename, if_neg (not_not.mpr (pathOf_snoc_head ts' t')),
    if_neg (not_not.mpr (pathOf_snoc_head ts t)), hsrc.dirs.find_parent hr h hsrc.comps,
    hdes.dirs.find_parent hr h hdes.comps, lastName_pathOf hsrc.comps.last.2,
    lastName_pathOf hdes.comps.last.2]
  cases isDir <;> rfl

/-- **What a call does**, whatever it finds. -/
theorem rename_outcome (hr : Rep g m d v) (h : Tidy g v S L) (hsrc : v.PathTo g.root ts t k i)
    (hdes : v.Missing g.root ts' t' k')
    (hrun : fat32Rename g.part ⟨fuel, fun _ _ => longNames⟩ d (pathOf (ts ++ [t]))
      (pathOf (ts' ++ [t'])) isDir = some d') :
    ∃ e p r v₁ v', Rep g False d' v' ∧ v.Outcome S isDir t k t' k' e p r v₁ v' := by
  rw [fat32Rename_eq hr h hsrc hdes] at hrun
  obtain ⟨source, hsource, hrun⟩ := bind_eq_some_iff.mp hrun
  obtain ⟨place, hplace, hrun⟩ := bind_eq_some_iff.mp hrun
  obtain ⟨out, hout, rfl⟩ := map_eq_some_iff.mp hrun
  have hcopied := copied_source hr h hsrc hsource (formatName83 t')
  have hname := renamed_name (length_formatName83 t') (source.getD longNames)
  dsimp only at hout
  generalize renamed (formatName83 t') (source.getD longNames) = e at hout hcopied hname
  -- the copy is in its slot, and the directories of the source are found as before
  obtain ⟨p, v₁, S₁, hr₁, hplaced, hsub, hwalk, hreach, hroom⟩ :=
    placeEntry_placed hr h hdes.dirs hplace e
  have hnew : Placed.NewIn S p e v := fun hp j hj hlive =>
    hname ▸ hdes.fresh p.1 (hreach hp) j hj hlive
  have hcopy : Vol.Edited S p e none v v₁ v₁ :=
    ⟨hplaced, hnew, first_ne_zero_of_name hname hdes.text, .refl S v₁⟩
  have hfind := hcopy.find_parent h hr₁ hsrc.dirs hsrc.comps
  have hkS := hsrc.dirs.mem h h.root_mem
  -- the removal ends the scan of a cluster, or changes nothing
  obtain ⟨r, v', hr', hres⟩ :
      ∃ r v', Rep g False out.1 v' ∧ v.Outcome S isDir t k t' k' e p r v₁ v' := by
    rcases removeEntry_longNames hr₁ hwalk (hsub hkS) hsrc.comps hfind hout with
      hsame | ⟨s, hlen, hstat, hreach, hentry, hrep⟩
    · rw [hsame]
      exact ⟨none, v₁, hr₁, hcopy, hname, hcopied, hroom, nofun⟩
    · obtain ⟨hlt, -, hentryName⟩ := scanEntry_hit hentry
      have hdot : v₁.slot s.1 s.2 0 ≠ dot := by
        rw [show v₁.slot s.1 s.2 0 = v.slot k i 0 from hsrc.first hentryName]
        exact (live_of_scanToken hsrc.found).2.1.2.2.1
      refine ⟨some s, _, hrep, ⟨hplaced, hnew, hcopy.used, erased_setSlot S v₁ hlt hdot⟩,
        hname, hcopied, hroom, ?_⟩
      rintro _ ⟨⟩
      exact ⟨hlen, hstat.imp_right fun ⟨j, hj, htype⟩ => ⟨j, hj, ne_refused_iff.mp htype⟩,
        hreach, hentry⟩
  split
  · have hsame : Live e → ∃ x y, (Owner.slot x y).In S v ∧
        getEntryCluster e = getEntryCluster (v.slot x y) := by
      intro hlive
      obtain ⟨x, y, hin, -, -, hentry⟩ := hcopied hlive
      exact ⟨x, y, hin, hentry.cluster.trans (renamed_cluster _ _)⟩
    obtain ⟨v'', hr'', hedited⟩ := hres.edited.parent h hr' hdes.dirs hdes.comps hsame
      (fun _ => longNames) k'
    exact ⟨e, p, r, v₁, v'', hr'', { hres with edited := hedited }⟩
  · exact ⟨e, p, r, v₁, v', hr', hres⟩

/-! ### The conditions are necessary -/

namespace Vol.Outcome

variable {q : ℕ × ℕ} (h : Tidy g v S L) (hsrc : v.PathTo g.root ts t k i)
  (hcluster : getEntryCluster (v.slot k i) ≠ 0) (hdes : v.Missing g.root ts' t' k')
  (ho : v.Outcome S isDir t k t' k' e p r v₁ v')
include h hsrc hcluster hdes ho

/-- If the destination leads to the cluster of the source, it leads to a copy of it. -/
theorem target (hr' : Rep g m d' v') (hfound : v'.PathTo g.root ts' t' q.1 q.2)
    (hresolves : ∀ junk, findClusterFromPath g.part junk d' (pathOf (ts' ++ [t'])) =
      getEntryCluster (v.slot k i)) :
    q = p ∧ p.1 = k' ∧ ¬ v.Through (Blocked r) (cut ts') g.root ∧
      scanName (formatName83 t) (v.data k) = .hit i ∧
      SameEntry e (renamed (formatName83 t') (v.slot k i)) := by
  obtain ⟨hdirs', hout, hfind⟩ : v'.Dirs g.root ts' k' ∧ ¬ v.Through (Blocked r) (cut ts') g.root ∧
      ∀ junk, findClusterFromPath g.part junk d' (pathOf (ts' ++ [t'])) =
        (v'.find [t'.take (direntNameMaxLength - 1)] k').getD 0 :=
    (ho.edited.find_cases h hr' hdes.dirs hdes.comps).resolve_right fun hlost =>
      hcluster ((hresolves fun _ => e).symm.trans (hlost.2 _))
  obtain ⟨x, y⟩ := q
  obtain rfl : k' = x := by
    have hsame := hfound.dirs.find_append []
    rw [hdirs'.find_append] at hsame
    exact some.inj hsame
  have hk'S := hdes.dirs.mem h h.root_mem
  have hsrcIn := Tidy.in_of_scanToken (hsrc.dirs.mem h h.root_mem) hsrc.found
  have hhit := hfound.found
  dsimp only at hhit
  obtain ⟨hy, hlive, -⟩ := live_of_scanToken hhit
  have hsame : getEntryCluster (v'.slot k' y) = getEntryCluster (v.slot k i) := by
    rw [← hresolves fun _ => e, hfind, v'.find_of_hit hhit]
    rfl
  -- another entry with the cluster of the source would be the source, which is not hidden
  obtain rfl : (k', y) = p := by
    by_contra hne
    obtain ⟨hentry, hcase⟩ := ho.edited.back hk'S hhit hne
    obtain ⟨⟨hk', hlt, hzero⟩, -⟩ := hcase.resolve_left (hdes.missing y)
    cases h.slot_unique ⟨hk'S, hy, hentry.live.mp hlive⟩ hsrcIn
      (hentry.cluster.symm.trans hsame) hcluster
    have hused := used_of_scanToken hsrc.found hlt
    rw [hk'] at hused
    exact hused hzero
  have hentry : SameEntry (v'.slot k' y) e := ho.edited.here hk'S hhit
  obtain ⟨a, b, hin, -, hscan, hcopy⟩ := ho.source (hentry.live.mp hlive)
  have hcopied : getEntryCluster (v.slot a b) = getEntryCluster (v.slot k i) := by
    rw [← hsame, hentry.cluster, hcopy.cluster, renamed_cluster]
  cases h.slot_unique hin hsrcIn hcopied hcluster
  exact ⟨rfl, rfl, hout, hscan, hcopy⟩

/-- If the source leads nowhere, it has been removed. -/
theorem removes (hr' : Rep g m d' v') (hp : p.1 = k')
    (hsource : scanName (formatName83 t) (v.data k) = .hit i)
    (hgone : ∀ junk, findClusterFromPath g.part junk d' (pathOf (ts ++ [t])) = 0) :
    r = some (k, i) := by
  have hkS := hsrc.dirs.mem h h.root_mem
  obtain ⟨hi, hlive, -⟩ := live_of_scanToken hsrc.found
  have hname := (scanName_hit hsource).2
  have hblocked : Blocked r (k, i) := by
    rcases ho.edited.find_cases h hr' hsrc.dirs hsrc.comps with ⟨-, -, hfind⟩ | ⟨hthrough, -⟩
    · by_contra hfree
      obtain ⟨-, hhit, hsame⟩ :=
        (ho.edited.forward hkS hsrc.found).resolve_right fun hlost => hfree hlost.1
      have hzero := hfind fun _ => e
      rw [hgone, v'.find_of_hit hhit] at hzero
      exact hcluster (hsame.cluster.symm.trans hzero.symm)
    · refine absurd hthrough (hsrc.dirs.not_through h ?_)
      rintro q ⟨s, hs, hq, -⟩
      have hreach := (ho.removed s hs).2.2.1
      rw [(ho.room hp).2, hq] at hreach
      exact hreach
  obtain ⟨⟨x, y⟩, rfl, hx, hle⟩ := hblocked
  obtain rfl : x = k := hx
  -- an entry before it with the same name would have been found
  rcases Nat.lt_or_eq_of_le hle with hlt | rfl
  · obtain ⟨-, -, -, hentry⟩ := ho.removed _ rfl
    obtain ⟨hy, hattr, hyname⟩ := scanEntry_hit hentry
    by_cases hyp : (x, y) = p
    · subst hyp
      have hcopy : SameEntry (v₁.slot x y) e := (ho.edited.placed.here hkS).2
      have hsame : formatName83 t' = formatName83 t :=
        ho.name.symm.trans (hcopy.name.symm.trans hyname)
      exact absurd (hname.trans hsame.symm) (hdes.fresh x (hp ▸ .refl) i hi hlive)
    · have hsame := ho.edited.placed.slots x hkS y hy hyp
      have hlong := hsrc.attr_of_before hname hlt (hsame.name.symm.trans hyname)
      exact absurd (hattr.symm.trans ((hsame 11 (by decide)).trans hlong)) (moveAttr_ne isDir).1
  · rfl

section Others

variable (hr : Rep g m d v) (hr' : Rep g m d' v')
  (hothers : ∀ path, v.Leads (fun _ => True) (tokens path) g.root →
    ¬ v.Through (· = (k, i)) (tokens path) g.root → ¬ v'.Through (· = p) (tokens path) g.root →
    ∀ junk junk', findClusterFromPath g.part junk' d' path = findClusterFromPath g.part junk d path)
  (hremoved : r = some (k, i)) (hu : u ≠ []) (hslash : slash ∉ u)
include hr hr' hothers hremoved hu hslash

omit hcluster hdes in
/-- If other paths lead where they did, nothing with a cluster is lost. -/
theorem cluster_of_lost (hlt : i < j)
    (hscan : scanToken (v.data k) (u.take (direntNameMaxLength - 1)) = .hit j) :
    getEntryCluster (v.slot k j) = 0 := by
  have hkS := hsrc.dirs.mem h h.root_mem
  have hcomps := hsrc.comps.init.snoc ⟨hu, hslash⟩
  have htokens := tokens_pathOf_snoc hcomps
  obtain ⟨-, hmiss⟩ := (ho.edited.forward hkS hscan).resolve_left fun hkept =>
    hkept.1 ⟨(k, i), hremoved, rfl, hlt.le⟩
  have hsame := hothers (pathOf (ts ++ [u])) ?_ ?_ ?_ (fun _ => e) fun _ => e
  · rw [hsrc.dirs.find_snoc hr h hcomps, v.find_of_hit hscan] at hsame
    exact hsame.symm.trans (ho.edited.find_missing h hr' hsrc.dirs hcomps hmiss _)
  · rw [htokens]
    exact hsrc.dirs.leads_append (cons_ne_nil _ _) fun _ _ => (if_pos rfl).mpr trivial
  · rw [htokens]
    intro hthrough
    rcases hsrc.dirs.through_append hthrough with hdirs | ⟨j', hj', hcase⟩
    · refine hsrc.dirs.not_through h ?_ hdirs
      rintro _ rfl
      exact .refl
    · cases hscan.symm.trans hj'
      rcases hcase with heq | hnil
      · exact hlt.ne' (congrArg Prod.snd heq)
      · exact hnil
  · rw [htokens]
    intro hthrough
    obtain ⟨j', hj', -⟩ := ho.edited.through_append h hsrc.dirs h.root_mem hthrough
    exact hmiss j' hj'

omit hcluster hdes hsrc hr' hu hslash in
/-- If other paths lead where they did, none leads through a component that was not found. -/
theorem find_hidden (hdirs : v.Dirs g.root ts' p.1)
    (hout : ¬ v.Through (Blocked r) (cut ts') g.root)
    (hmiss : ∀ j, scanToken (v.data p.1) w ≠ .hit j) (hhit : scanToken (v'.data p.1) w = .hit j)
    (hne : j ≠ p.2) {ws : List (List UInt8)} {x : List UInt8}
    (htokens : tokens (pathOf (us ++ [x])) = cut ts' ++ w :: ws)
    (hrest : ¬ v'.Through (· = p) ws (getEntryCluster (v'.slot p.1 j))) (junk : ℕ → Buf) :
    findClusterFromPath g.part junk d' (pathOf (us ++ [x])) = 0 := by
  have hrange := (h.closed _ (hdirs.mem h h.root_mem)).1
  have hread := hdirs.readable_append h h.root_mem (w :: ws)
    ⟨hrange, fun i hi => absurd hi (hmiss i)⟩
  rw [hothers _ ?_ ?_ ?_ junk junk, hr.findClusterFromPath_eq (fun _ => htokens ▸ hread), resolve,
    if_pos (pathOf_snoc_head us x), htokens, hdirs.find_append, find_of_miss hmiss, getD_none]
  · rw [htokens]
    exact hdirs.leads_append (cons_ne_nil _ _) fun i hi => absurd hi (hmiss i)
  · rw [htokens]
    intro hthrough
    rcases hdirs.through_append hthrough with hbefore | ⟨j', hj', -⟩
    · refine hout (hbefore.mono ?_)
      rintro _ rfl
      exact ⟨(k, i), hremoved, rfl, le_rfl⟩
    · exact hmiss j' hj'
  · rw [htokens]
    intro hthrough
    obtain ⟨j', hj', hcase⟩ := ho.edited.through_append h hdirs h.root_mem hthrough
    cases hhit.symm.trans hj'
    rcases hcase with heq | hbehind
    · exact hne (congrArg Prod.snd heq)
    · exact hrest hbehind

omit hcluster in
/-- If other paths lead where they did, nothing is found again: not even a file without a cluster,
since the lookup of a path behind it reads uninitialised memory. -/
theorem not_shown (hp : p.1 = k') (hahead : p.1 = k → p.2 < i)
    (hout : ¬ v.Through (Blocked r) (cut ts') g.root) (hzero : v.slot p.1 p.2 0 = 0)
    (hlt : p.2 < j) :
    scanToken (v₁.data p.1) (u.take (direntNameMaxLength - 1)) ≠ .hit j := by
  have hcomps := hdes.comps.init.snoc ⟨hu, hslash⟩
  have hcomps' : Components (ts' ++ [u] ++ [[0x41]]) := hcomps.snoc (by decide)
  have htokens := tokens_pathOf_snoc hcomps
  have htokens' : tokens (pathOf (ts' ++ [u] ++ [[0x41]])) =
      (cut ts' ++ [u.take (direntNameMaxLength - 1)]) ++ [[0x41]] := by
    rw [tokens_pathOf_snoc hcomps', cut, map_append]
    rfl
  generalize u.take (direntNameMaxLength - 1) = w at htokens htokens'
  intro hscan
  have hdirs : v.Dirs g.root ts' p.1 := hp ▸ hdes.dirs
  have hpS := hdirs.mem h h.root_mem
  -- the slot of the copy ended the scan, so that the source is in another cluster
  have hmiss : ∀ j', scanToken (v.data p.1) w ≠ .hit j' := by
    intro j' hj'
    cases hscan.symm.trans (ho.edited.placed.scanToken_hit ho.edited.new ho.edited.used hpS hj').1
    exact used_of_scanToken hj' hlt hzero
  have hhit : scanToken (v'.data p.1) w = .hit j := by
    refine ho.edited.erased.keep p.1 hpS _ j hscan ?_
    rintro ⟨s, hs, hk, -⟩
    cases hremoved.symm.trans hs
    have hused := used_of_scanToken hsrc.found (hahead hk.symm)
    rw [show k = p.1 from hk] at hused
    exact hused hzero
  have hfind : v'.find (cut ts' ++ [w]) g.root = some (getEntryCluster (v'.slot p.1 j)) := by
    rw [(ho.edited.dirs h hdirs h.root_mem hout).find_append, v'.find_of_hit hhit]
    rfl
  have hread := ho.edited.readable h hdirs h.root_mem [w] ⟨(h.closed _ hpS).1, fun _ _ => trivial⟩
  have hcluster : getEntryCluster (v'.slot p.1 j) = 0 := by
    have hnone := ho.find_hidden h hr hothers hremoved hdirs hout hmiss hhit hlt.ne' htokens id
      fun _ => e
    rwa [hr'.findClusterFromPath_eq (fun _ => htokens.symm ▸ hread), resolve,
      if_pos (pathOf_snoc_head ts' u), htokens, hfind] at hnone
  -- behind it the lookup goes on in the buffer
  have hnone := ho.find_hidden h hr hothers hremoved hdirs hout hmiss hhit hlt.ne'
    (htokens'.trans (append_assoc ..)) ?_ fun _ => newEntry (formatName83 [0x41]) 0x20 1
  · rw [findClusterFromPath, if_neg (not_not.mpr (pathOf_snoc_head _ _)), if_neg hcomps'.pathOf_ne,
      hr'.getRootDirCluster_eq, htokens', hr'.findClusterLoop_append hread hfind, hcluster,
      findClusterLoop, readCluster_of_lt _ _ (by decide),
      show scanToken (newEntry (formatName83 [0x41]) 0x20 1, -1).1 [0x41] =
        .hit 0 by decide] at hnone
    exact absurd (show getEntryCluster (newEntry (formatName83 [0x41]) 0x20 1) = 0 from hnone)
      (by decide)
  · rw [hcluster]
    rintro ⟨l, -, hl | hnil⟩
    · have hroot : 0 = p.1 := congrArg Prod.fst hl
      exact h.zero_not_mem (hroot ▸ hpS)
    · exact hnil

end Others

/-- **The conditions are necessary.** -/
theorem moves (hr : Rep g m d v) (hr' : Rep g m d' v')
    (hren : Renamed g d d' ts t ts' t' (k, i) q) :
    v.Moves g.root isDir t (k, i) ts' t' (k', p.2) := by
  obtain rfl : vol g d = v := hr.vol
  obtain rfl : vol g d' = v' := hr'.vol
  obtain ⟨rfl, rfl, hout, hsource, hcopy⟩ :=
    ho.target h hsrc hcluster hdes hr' hren.found hren.resolves
  obtain rfl := ho.removes h hsrc hcluster hdes hr' rfl hsource hren.gone
  obtain ⟨hroom, hv₁⟩ := ho.room rfl
  obtain rfl : v₁ = (vol g d).copy t' (k, i) q := hv₁.trans ((vol g d).setSlot_congr hcopy)
  obtain ⟨hlen, hstat, -, hentry⟩ := ho.removed _ rfl
  obtain ⟨hi, hattr, hname⟩ := scanEntry_hit hentry
  have hkS := hsrc.dirs.mem h h.root_mem
  have hqS := hdes.dirs.mem h h.root_mem
  obtain ⟨-, hsrclive, -⟩ := live_of_scanToken hsrc.found
  obtain ⟨-, hlive, htoken⟩ := live_of_scanToken hren.found.found
  have hentry := ho.edited.here hqS hren.found.found
  have hahead : q.1 = k → q.2 < i := by
    intro heq
    by_contra hle
    exact ho.edited.erased.stop q.1 hqS _ q.2 hren.found.found ⟨_, rfl, heq.symm, Nat.not_lt.mp hle⟩
  constructor
  case source => exact hsource
  case attr =>
    have hne := ho.edited.placed.ne_of_not_free hkS hsrclive.not_free
    exact (ho.edited.placed.slots k hkS i hi hne 11 (by decide)).symm.trans hattr
  case length => exact hlen
  case stat =>
    refine hstat.resolve_left fun hexhausted => ?_
    unfold scanStat scanBy at hexhausted
    have hhit := hasStatName_of_name hlen hname (hattr ▸ (moveAttr_ne isDir).2)
      (hattr ▸ (moveAttr_ne isDir).1)
    cases hhit.symm.trans (scan_eq_exhausted_iff.mp hexhausted i hi).2
  case room => exact hroom
  case name =>
    rw [matchFormat_take (by decide)] at htoken
    exact htoken.symm.trans (hentry.name.trans ho.name)
  case first =>
    intro hfirst
    rw [← ho.name] at hfirst
    exact (hentry.live.mp hlive).2.1 (some.inj hfirst)
  case ahead => exact hahead
  case outside => exact hout
  case lost =>
    exact fun u hu hslash j => ho.cluster_of_lost h hsrc hr hr' hren.others rfl hu hslash
  case shown =>
    exact fun hzero u hu hslash j =>
      ho.not_shown h hsrc hdes hr hr' hren.others rfl hu hslash rfl hahead hout hzero

end Vol.Outcome

/-! ### The conditions are sufficient -/

theorem findSource_here (hr : Rep g m d v) (hk2 : 2 ≤ k) (hkn : k < g.clusters) {name : List UInt8}
    (hscan : scanName name (v.data k) = .hit i) (hfuel : 0 < fuel) (buf : Buf) :
    ∃ e, findSource g.part d name fuel k buf = some (some e) ∧ SameEntry e (v.slot k i) := by
  obtain ⟨fuel, rfl⟩ := Nat.exists_eq_succ_of_ne_zero hfuel.ne'
  have hsame := hr.readCluster_same hk2 hkn buf
  have hi := (scanName_hit hscan).1
  rw [← hsame.scanName name, scanName] at hscan
  split at hscan
  · rename_i i' hlast
    obtain rfl := Scan.hit.inj hscan
    refine ⟨_, ?_, hsame.slot hi⟩
    rw [findSource, if_neg (by omega)]
    dsimp only
    rw [hlast]
  · cases hscan

theorem renamed_size (name : List UInt8) (e : Buf) : fileSize (renamed name e) = fileSize e :=
  leNat_congr fun _ _ => renamed_of_le name e (by omega)

/-- **Other paths**: they lead where they did if nothing with a cluster is lost behind the source
and nothing is found again behind the copy. -/
theorem Vol.Edited.find_others {s : ℕ × ℕ} (hed : Vol.Edited S p e (some s) v v₁ v')
    (h : Tidy g v S L) (hlost : ∀ u ∈ ts, ∀ j, s.2 < j → scanToken (v.data s.1) u = .hit j →
      getEntryCluster (v.slot s.1 j) = 0)
    (hshown : v.slot p.1 p.2 0 = 0 → ∀ u ∈ ts, ∀ j, p.2 < j → scanToken (v₁.data p.1) u ≠ .hit j)
    (hc : c ∈ S) (hlead : v.Leads (fun _ => True) ts c) (hs : ¬ v.Through (· = s) ts c)
    (hp : ¬ v'.Through (· = p) ts c) :
    v'.Readable g.clusters ts c ∧ (v'.find ts c).getD 0 = (v.find ts c).getD 0 := by
  induction ts generalizing c with
  | nil => exact ⟨trivial, rfl⟩
  | cons u us ih =>
    have hlost' := fun w hw => hlost w (mem_cons_of_mem u hw)
    have hshown' := fun hzero w hw => hshown hzero w (mem_cons_of_mem u hw)
    by_cases hhit : ∃ j, scanToken (v.data c) u = .hit j
    · obtain ⟨j, hj⟩ := hhit
      have hslot := hlead j hj
      obtain ⟨hne, hrest⟩ := Through.of_tail hj hs
      rcases hed.forward hc hj with ⟨-, hnew, hsame⟩ | ⟨⟨_, ⟨⟩, hx, hle⟩, hmiss⟩
      · obtain ⟨-, hrest'⟩ := Through.of_tail hnew hp
        rw [hsame.cluster] at hrest'
        rw [v.find_of_hit hj, v'.find_of_hit hnew, hsame.cluster]
        have hnext : v'.Readable g.clusters us (getEntryCluster (v.slot c j)) ∧
            (v'.find us (getEntryCluster (v.slot c j))).getD 0 =
              (v.find us (getEntryCluster (v.slot c j))).getD 0 := by
          split at hslot
          · rename_i hnil
            subst hnil
            exact ⟨trivial, rfl⟩
          · exact ih hlost' hshown' (Dirs.next_mem h hc hj hslot.1 hslot.2.1) hslot.2.2 hrest hrest'
        refine ⟨⟨(h.closed c hc).1, fun j' hj' => ?_⟩, hnext.2⟩
        cases hnew.symm.trans hj'
        rw [hsame.cluster]
        exact hnext.1
      · -- what is lost has no cluster, so that the path ends there
        obtain rfl : s.1 = c := hx
        have hlt : s.2 < j := lt_of_le_of_ne hle fun heq => hne (Prod.ext rfl heq.symm)
        have hzero := hlost u mem_cons_self j hlt hj
        refine ⟨⟨(h.closed _ hc).1, fun j' hj' => absurd hj' (hmiss j')⟩, ?_⟩
        split at hslot
        · rename_i hnil
          subst hnil
          rw [find_of_miss hmiss, v.find_of_hit hj, hzero]
          rfl
        · exact absurd hzero hslot.2.1
    · have hmiss : ∀ j, scanToken (v'.data c) u ≠ .hit j := by
        intro j hj
        have hne : (c, j) ≠ p := fun heq => hp ⟨j, hj, .inl heq⟩
        rcases (hed.back hc hj hne).2 with hold | ⟨⟨rfl, hlt, hzero⟩, hmid⟩
        · exact hhit ⟨j, hold⟩
        · exact hshown hzero u mem_cons_self j hlt hmid
      refine ⟨⟨(h.closed c hc).1, fun j hj => absurd hj (hmiss j)⟩, ?_⟩
      rw [find_of_miss hmiss, find_of_miss (not_exists.mp hhit)]

namespace Vol.Moves

variable {i' : ℕ} (hr : Rep g m d v) (h : Tidy g v S L) (hsrc : v.PathTo g.root ts t k i)
  (hdes : v.Missing g.root ts' t' k') (hmov : v.Moves g.root isDir t (k, i) ts' t' (k', i'))
include hsrc hdes hmov

omit hsrc in
theorem live_copy : Live (renamed (formatName83 t') (v.slot k i)) := by
  have hname := renamed_name (length_formatName83 t') (v.slot k i)
  have hhead := congrArg head? hname
  refine ⟨first_ne_zero_of_name hname hdes.text, fun hdeleted => ?_, fun hdot => ?_, ?_⟩
  · exact hmov.first (hhead.symm.trans (congrArg some hdeleted))
  · exact matchFormat_head_ne_dot t' (hmov.name ▸ hhead.symm.trans (congrArg some hdot))
  · rw [renamed_of_le _ _ le_rfl, hmov.attr]
    exact (moveAttr_ne isDir).1

/-- The copy does not come before the source in the scan for the entry that is removed. -/
theorem scanEntry_copy :
    scanEntry (moveAttr isDir) (formatName83 t) ((v.copy t' (k, i) (k', i')).data k) = .hit i := by
  obtain ⟨hi, hlive, -⟩ := live_of_scanToken hsrc.found
  obtain ⟨hi', hfree⟩ := isFree_of_scanFree hmov.room
  have hname := (scanName_hit hmov.source).2
  have hsame : ∀ l < slotsPerCluster, (k, l) ≠ (k', i') →
      SameEntry ((v.copy t' (k, i) (k', i')).slot k l) (v.slot k l) :=
    fun l hl hne => v.setSlot_slot_of_ne hl hne
  have hne : (k, i) ≠ (k', i') := by
    rintro ⟨⟩
    exact hlive.not_free hfree
  have hentry := hsame i hi hne
  refine scan_eq_hit_iff.mpr ⟨hi, ⟨?_, ?_⟩, fun l hl => ?_⟩
  · exact beq_eq_false_iff_ne.mpr fun hzero => hlive.1 ((hentry 0 (by decide)).symm.trans hzero)
  · rw [Bool.and_eq_true, beq_iff_eq, beq_iff_eq]
    exact ⟨(hentry 11 (by decide)).trans hmov.attr, hentry.name.trans hname⟩
  · rw [beq_eq_false_iff_ne, Bool.and_eq_false_iff, beq_eq_false_iff_ne, beq_eq_false_iff_ne]
    by_cases heq : (k, l) = (k', i')
    · obtain ⟨rfl, rfl⟩ := Prod.mk.inj heq
      have hcname := (v.setSlot_slot_self k hi' _).name.trans
        (renamed_name (length_formatName83 t') (v.slot k i))
      refine ⟨fun hzero => ?_, .inr fun hsource => ?_⟩
      · exact first_ne_zero_of_name hcname hdes.text hzero
      · exact hdes.fresh k .refl i hi hlive (hname.trans (hsource.symm.trans hcname))
    · have hentry := hsame l (hl.trans hi) heq
      have hused := used_of_scanToken hsrc.found hl
      refine ⟨fun hzero => hused ((hentry 0 (by decide)).symm.trans hzero), ?_⟩
      by_contra hboth
      rw [not_or, not_not, not_not] at hboth
      have hlong := hsrc.attr_of_before hname hl (hentry.name.symm.trans hboth.2)
      exact (moveAttr_ne isDir).1 (hboth.1.symm.trans ((hentry 11 (by decide)).trans hlong))

include hr h

/-- **The call moves the entry.** -/
theorem run (junk : ℕ → ℕ → Buf) :
    ∃ d' v', fat32Rename g.part ⟨1, junk⟩ d (pathOf (ts ++ [t])) (pathOf (ts' ++ [t']))
      isDir = some d' ∧
      Rep g m d' v' ∧ Vol.Edited S (k', i') (renamed (formatName83 t') (v.slot k i)) (some (k, i)) v
        (v.copy t' (k, i) (k', i')) v' := by
  have hkS := hsrc.dirs.mem h h.root_mem
  obtain ⟨hk2, hkn⟩ := (h.closed k hkS).1
  obtain ⟨hk2', hkn'⟩ := (h.closed k' (hdes.dirs.mem h h.root_mem)).1
  obtain ⟨hi, hlive, -⟩ := live_of_scanToken hsrc.found
  obtain ⟨hi', hfree⟩ := isFree_of_scanFree hmov.room
  obtain ⟨s, hsource, hs⟩ := findSource_here hr hk2 hkn hmov.source Nat.one_pos (junk 1 0)
  obtain ⟨b, hplace, hb⟩ := findFreeSlot_here hr hk2' hkn' hmov.room Nat.one_pos k' (junk 3 0)
  have hr₁ := hr.writeSlot_rep hk2' hkn' hb i' (renamed (formatName83 t') s)
  have hsame : SameEntry (renamed (formatName83 t') s) (renamed (formatName83 t') (v.slot k i)) :=
    hs.blit 0 11 _
  rw [v.setSlot_congr hsame] at hr₁
  have hplaced : Placed S (k', i') (renamed (formatName83 t') (v.slot k i)) v
    (v.copy t' (k, i) (k', i')) := .of_setSlot S hi' hfree _
  have hname := renamed_name (length_formatName83 t') (v.slot k i)
  have hcopy : Vol.Edited S (k', i') _ none v _ _ := ⟨hplaced, fun _ j hj hlive => hname ▸
    hdes.fresh k' .refl j hj hlive, first_ne_zero_of_name hname hdes.text, .refl S _⟩
  have hfind := hcopy.find_parent h hr₁ hsrc.dirs hsrc.comps
  obtain ⟨j, hstat, htype⟩ := hmov.stat
  have hne := hplaced.ne_of_not_free hkS hlive.not_free
  have hdot : (v.copy t' (k, i) (k', i')).slot k i 0 ≠ dot := by
    rw [hplaced.slots k hkS i hi hne 0 (by decide)]
    exact hlive.2.2.1
  obtain ⟨out, hout, hrep⟩ := removeEntry_hit (moveError isDir) (moveError isDir)
    ⟨1, fun n => junk (n + 5)⟩ hr₁ ⟨hk2, hkn⟩ hsrc.comps hfind hmov.length hstat
    (ne_refused_iff.mpr htype) (hmov.scanEntry_copy hsrc hdes) Nat.one_pos
  have hed : Vol.Edited S (k', i') _ (some (k, i)) v _ _ :=
    ⟨hplaced, hcopy.new, hcopy.used, erased_setSlot S _ hi hdot⟩
  rw [fat32Rename_eq hr h hsrc hdes, hsource, bind_some, hplace, bind_some]
  obtain ⟨v', hr', hed'⟩ := hed.parent h hrep hdes.dirs hdes.comps
    (fun _ => ⟨k, i, ⟨hkS, hi, hlive⟩, renamed_cluster _ _⟩) (junk 4) k'
  cases isDir with
  | false => exact ⟨out.1, _, map_eq_some_iff.mpr ⟨out, hout, rfl⟩, hrep, hed⟩
  | true => exact ⟨_, v', map_eq_some_iff.mpr ⟨out, hout, rfl⟩, hr', hed'⟩

/-- **The conditions are sufficient.** -/
theorem renamed (hr' : Rep g m d' v') (hed : Vol.Edited S (k', i')
      (renamed (formatName83 t') (v.slot k i)) (some (k, i)) v (v.copy t' (k, i) (k', i')) v') :
    Renamed g d d' ts t ts' t' (k, i) (k', i') := by
  obtain rfl : vol g d = v := hr.vol
  obtain rfl : vol g d' = v' := hr'.vol
  have hkS := hsrc.dirs.mem h h.root_mem
  have hkS' := hdes.dirs.mem h h.root_mem
  have hname := renamed_name (length_formatName83 t') ((vol g d).slot k i)
  have htoken := hname.trans (hmov.name.symm.trans
    (matchFormat_take (n := direntNameMaxLength - 1) (by decide)).symm)
  have hmid : scanToken (((vol g d).copy t' (k, i) (k', i')).data k')
      (t'.take (direntNameMaxLength - 1)) = .hit i' :=
    hed.placed.scanToken_new hkS' hmov.room hed.new (hmov.live_copy hdes) htoken
  have hhit : scanToken ((vol g d').data k') (t'.take (direntNameMaxLength - 1)) = .hit i' := by
    refine hed.erased.keep k' hkS' _ i' hmid ?_
    rintro ⟨_, ⟨⟩, hx, hle⟩
    exact Nat.not_le.mpr (hmov.ahead hx.symm) hle
  have hentry : SameEntry ((vol g d').slot k' i') _ := hed.here hkS' hhit
  constructor
  case found => exact ⟨hdes.comps, hed.dirs h hdes.dirs h.root_mem hmov.outside, hhit⟩
  case resolves =>
    intro junk
    rcases hed.find_cases h hr' hdes.dirs hdes.comps with ⟨-, -, hfind⟩ | ⟨hthrough, -⟩
    · rw [hfind, find_of_hit _ hhit]
      exact hentry.cluster.trans (renamed_cluster _ _)
    · exact absurd hthrough hmov.outside
  case attr => exact (hentry 11 (by decide)).trans (renamed_of_le _ _ le_rfl)
  case size => exact hentry.size.trans (renamed_size _ _)
  case gone =>
    obtain ⟨-, hmiss⟩ := (hed.forward hkS hsrc.found).resolve_left fun hkept =>
      hkept.1 ⟨_, rfl, rfl, le_rfl⟩
    exact hed.find_missing h hr' hsrc.dirs hsrc.comps hmiss
  case others =>
    intro path hlead hs hp junk junk'
    have htaken : ∀ u ∈ tokens path, u ≠ [] ∧ slash ∉ u ∧ u.take (direntNameMaxLength - 1) = u := by
      intro u hu
      obtain ⟨⟨hne, hslash⟩, hlen⟩ := of_mem_tokens hu
      exact ⟨hne, hslash, take_of_length_le hlen⟩
    obtain ⟨hread', hfind⟩ := hed.find_others h (fun u hu j hlt hscan => by
        obtain ⟨hne, hslash, htake⟩ := htaken u hu
        exact hmov.lost u hne hslash j hlt (htake.symm ▸ hscan)) (fun hzero u hu j hlt hscan => by
        obtain ⟨hne, hslash, htake⟩ := htaken u hu
        exact hmov.shown hzero u hne hslash j hlt (htake.symm ▸ hscan)) h.root_mem hlead hs hp
    have hread := (h.find_cases h.root_mem hlead).1
    rw [hr'.findClusterFromPath_eq (fun _ => hread'),
      hr.findClusterFromPath_eq (fun _ => hread), resolve, resolve, hfind]

end Vol.Moves

/-- **Renaming moves exactly one entry** if and only if the conditions are met: for every source
with a first cluster and every destination that does not exist in a directory that does. -/
theorem renamed_iff_moves (hdisk : OnDisk g d) (hwf : WellFormed g (vol g d))
    (hsrc : (vol g d).PathTo g.root ts t k i) (hcluster : getEntryCluster ((vol g d).slot k i) ≠ 0)
    (hdes : (vol g d).Missing g.root ts' t' k') :
    (∀ junk, ∃ fuel d' p,
        fat32Rename g.part ⟨fuel, junk⟩ d (pathOf (ts ++ [t])) (pathOf (ts' ++ [t']))
        isDir = some d' ∧ Renamed g d d' ts t ts' t' (k, i) p) ↔
      ∃ i', (vol g d).Moves g.root isDir t (k, i) ts' t' (k', i') := by
  obtain ⟨L, h⟩ := hwf
  have hr := hdisk.rep.mono False.elim
  constructor
  · intro hall
    obtain ⟨fuel, d', q, hrun, hren⟩ := hall fun _ _ => longNames
    obtain ⟨e, p, r, v₁, v', hr', ho⟩ := rename_outcome hr h hsrc hdes hrun
    exact ⟨p.2, ho.moves h hsrc hcluster hdes hr hr' hren⟩
  · rintro ⟨i', hmov⟩ junk
    obtain ⟨d', v', hrun, hr', hed⟩ := hmov.run hr h hsrc hdes junk
    exact ⟨1, d', (k', i'), hrun, hmov.renamed hr h hsrc hdes hr' hed⟩

end Main

/-! ### Two directories -/

/-- A root directory with a deleted entry before the file `A`. -/
def deletedDisk : Disk :=
  smallDisk [0x0FFFFFF8, 0x0FFFFFFF, 0x0FFFFFF8, 0x0FFFFFF8]
    [newEntry (0xE5 :: replicate 10 space) 0x20 0, newEntry (formatName83 [0x41]) 0x20 3]

theorem deletedDisk_flat : Flat smallGeometry (vol smallGeometry deletedDisk) := by
  decide +kernel

/-- A name of the root directory that no entry has. -/
theorem Flat.missing (h : Flat g v) (ht : t ≠ [] ∧ slash ∉ t) (htext : 0 ∉ t)
    (hscan : scanToken (v.data g.root) (t.take (direntNameMaxLength - 1)) = .stopped)
    (hnew : ∀ j < slotsPerCluster, cells 11 (v.slot g.root j) ≠ formatName83 t) :
    v.Missing g.root [] t g.root := by
  refine ⟨forall_mem_singleton.mpr ht, htext, .nil, fun j hj => ?_, fun c hc j hj _ => ?_⟩
  · cases hscan.symm.trans hj
  · rw [h.inTree (Vol.InTree.root.reaches hc)]
    exact hnew j hj

/-- The last entry of a directory is renamed, and its copy takes the place of a deleted one. -/
theorem renamed_iff_moves_deleted : OnDisk smallGeometry deletedDisk ∧ ∀ junk, ∃ fuel d' p,
    fat32Rename smallGeometry.part ⟨fuel, junk⟩ deletedDisk (pathOf [[0x41]]) (pathOf [[0x43]])
      false = some d' ∧ Renamed smallGeometry deletedDisk d' [] [0x41] [] [0x43] (2, 1) p := by
  have hdisk : OnDisk smallGeometry deletedDisk := smallDisk_onDisk _ _
  have hsrc : (vol smallGeometry deletedDisk).PathTo smallGeometry.root [] [0x41] 2 1 :=
    ⟨forall_mem_singleton.mpr (by decide), .nil, by decide +kernel⟩
  have hdes : (vol smallGeometry deletedDisk).Missing smallGeometry.root [] [0x43] 2 :=
    deletedDisk_flat.missing (by decide) (by decide) (by decide +kernel) (by decide +kernel)
  have hlast : ∀ j < slotsPerCluster, 1 < j →
      ¬ Live ((vol smallGeometry deletedDisk).slot 2 j) := by decide +kernel
  have hstat : scanStat [0x41] (((vol smallGeometry deletedDisk).copy [0x43] (2, 1)
      (2, 0)).data 2) = .hit 1 := by decide +kernel
  refine ⟨hdisk, (renamed_iff_moves hdisk deletedDisk_flat.wellFormed hsrc (by decide +kernel)
    hdes).mpr ⟨0, ?_⟩⟩
  constructor
  case source => decide +kernel
  case attr => decide +kernel
  case length => decide
  case stat => exact ⟨1, hstat, by decide +kernel⟩
  case room => decide +kernel
  case name => decide
  case first => decide
  case ahead => decide
  case outside => exact id
  case lost =>
    intro u _ _ j hj hscan
    obtain ⟨hlt, hlive, -⟩ := live_of_scanToken hscan
    exact absurd hlive (hlast j hlt hj)
  case shown => exact fun hzero => absurd hzero (by decide +kernel)

/-- **Renaming the first of two files** hides the second one and its own copy. -/
theorem rename_hides : OnDisk smallGeometry twoFilesDisk ∧
    WellFormed smallGeometry (vol smallGeometry twoFilesDisk) ∧
    (vol smallGeometry twoFilesDisk).PathTo smallGeometry.root [] [0x41] 2 0 ∧
    getEntryCluster ((vol smallGeometry twoFilesDisk).slot 2 0) = 3 ∧
    (vol smallGeometry twoFilesDisk).Missing smallGeometry.root [] [0x43] 2 ∧
    findClusterFromPath smallGeometry.part (fun _ _ => 0) twoFilesDisk [slash, 0x42] = 4 ∧
    (fat32Rename smallGeometry.part ⟨5, fun _ _ _ => 0⟩ twoFilesDisk [slash, 0x41] [slash, 0x43]
      false).map (fun d' =>
        (findClusterFromPath smallGeometry.part (fun _ _ => 0) d' [slash, 0x43],
          findClusterFromPath smallGeometry.part (fun _ _ => 0) d' [slash, 0x42])) = some (0, 0) ∧
    ¬ ∃ d' p, fat32Rename smallGeometry.part ⟨5, fun _ _ _ => 0⟩ twoFilesDisk [slash, 0x41]
        [slash, 0x43] false = some d' ∧
      Renamed smallGeometry twoFilesDisk d' [] [0x41] [] [0x43] (2, 0) p := by
  have hcluster : getEntryCluster ((vol smallGeometry twoFilesDisk).slot 2 0) = 3 := by
    decide +kernel
  refine (fun heval => ⟨smallDisk_onDisk _ _, twoFilesDisk_flat.wellFormed,
    ⟨forall_mem_singleton.mpr (by decide), .nil, by decide +kernel⟩, hcluster,
    twoFilesDisk_flat.missing (by decide) (by decide) (by decide +kernel) (by decide +kernel),
    by decide +kernel, heval, ?_⟩) (by decide +kernel)
  rintro ⟨d', p, hrun, hrenamed⟩
  rw [hrun] at heval
  obtain ⟨hlost, -⟩ := Prod.mk.inj (some.inj heval)
  have hfound := hrenamed.resolves fun _ _ => 0
  rw [show pathOf ([] ++ [[0x43]]) = [slash, 0x43] from rfl, hlost, hcluster] at hfound
  cases hfound

end CarrotOS.Fat32
