import CarrotOS.Fs.Grow

/-!
# Calls that keep the chains apart

Under conditions on the volume before a call, creating, writing, truncating and removing keep it
tidy. The conditions exclude paths that lead through files, which the code reads as if they were
directories, and calls that change a chain without its entry.
-/

namespace CarrotOS.Fat32

open LinkTable Function Option Vol

variable {o : Owner} {attr : UInt8} {b : Buf} {i p z : ℕ} {env : FatEnv} {r : ℤ}

/-- A directory with a cluster. -/
def IsSubdir (e : Buf) : Prop := IsDir e ∧ getEntryCluster e ≠ 0

namespace Vol

/-- Every component of the path that is found is a directory. -/
def DirPath (root : ℕ) (v : Vol) (path : List UInt8) : Prop :=
  path.head? = some slash → v.Leads IsSubdir (tokens path) root

/-- The directory that starts at `p` has a free slot, or some cluster is free. -/
def HasRoom (n : ℕ) (v : Vol) (p : ℕ) : Prop :=
  (∃ k i, Reaches v.next p k ∧ i < slotsPerCluster ∧ IsFree (v.slot k i)) ∨
    ∃ b, 2 ≤ b ∧ b < n ∧ v.fat b = 0

/-- The directories of `S` are the same in both volumes, apart from clusters and sizes of files. -/
def SameDirs (S : Set ℕ) (v v' : Vol) : Prop :=
  ∀ k ∈ S, ∀ i < slotsPerCluster, (∀ j < 12, v'.slot k i j = v.slot k i j) ∧
    (IsDir (v.slot k i) → getEntryCluster (v'.slot k i) = getEntryCluster (v.slot k i))

end Vol

section Paths

variable {g : Geometry} {m : Prop} {d d' d2 : Disk} {v v' v'' v2 : Vol} {S : Set ℕ}
  {L : Owner → List ℕ} {c : ℕ} {path : List UInt8} {ts : List (List UInt8)}

theorem Vol.SameDirs.trans (h : Vol.SameDirs S v v') (h' : Vol.SameDirs S v' v'') :
    Vol.SameDirs S v v'' := by
  intro k hk i hi
  obtain ⟨hbytes, hcluster⟩ := h k hk i hi
  obtain ⟨hbytes', hcluster'⟩ := h' k hk i hi
  refine ⟨fun j hj => (hbytes' j hj).trans (hbytes j hj), ?_⟩
  intro hdir
  have hdir' : IsDir (v'.slot k i) := by
    rw [IsDir, hbytes 11 (by decide)]
    exact hdir
  exact (hcluster' hdir').trans (hcluster hdir)

theorem Vol.SameDirs.of_data (h : ∀ k ∈ S, v'.data k = v.data k) : Vol.SameDirs S v v' := by
  intro k hk i _
  rw [slot, slot, h k hk]
  exact ⟨fun _ _ => rfl, fun _ => rfl⟩

theorem Vol.SameDirs.scanToken (h : Vol.SameDirs S v v') {k : ℕ} (hk : k ∈ S) (t : List UInt8) :
    scanToken (v'.data k) t = scanToken (v.data k) t := by
  refine scan_congr fun i hi => ?_
  have hbytes := (h k hk i hi).1
  rw [show slotFirst (v'.data k) i = slotFirst (v.data k) i from hbytes 0 (by decide),
    show slotAttr (v'.data k) i = slotAttr (v.data k) i from hbytes 11 (by decide),
    show slotName (v'.data k) i = slotName (v.data k) i from cells_congr fun j hj =>
      hbytes j (by omega)]
  exact ⟨rfl, rfl⟩

theorem Tidy.leads_congr (h : Tidy g v S L) (hsame : Vol.SameDirs S v v') (hc : c ∈ S)
    (hlead : v.Leads IsSubdir ts c) : v'.Leads IsSubdir ts c := by
  induction ts generalizing c with
  | nil => trivial
  | cons t ts ih =>
    intro i hscan
    rw [hsame.scanToken hc] at hscan
    have ho := Tidy.in_of_scanToken hc hscan
    obtain ⟨hbytes, hcluster⟩ := hsame c hc i ho.2.1
    have hslot := hlead i hscan
    have hdir : IsDir (v.slot c i) ∧ getEntryCluster (v.slot c i) ≠ 0 := by
      split at hslot
      · exact hslot
      · exact ⟨hslot.1, hslot.2.1⟩
    have hdir' : IsDir (v'.slot c i) := by
      rw [IsDir, hbytes 11 (by decide)]
      exact hdir.1
    rw [IsSubdir, hcluster hdir.1]
    split
    · exact ⟨hdir', hdir.2⟩
    · rename_i hne
      rw [if_neg hne] at hslot
      exact ⟨hdir', hdir.2, ih (h.cluster_mem ho hdir.1 hdir.2) hslot.2.2⟩

/-- **The parent of a path** is not found or is a directory. -/
theorem Tidy.parent (h : Tidy g v S L) (hr : Rep g m d v) (hdir : v.DirPath g.root path)
    (junk : ℕ → Buf) :
    findClusterFromPath g.part junk d path = v.resolve g.root path ∧
      (v.resolve g.root path = 0 ∨
        ∃ o : Owner, o.In S v ∧ o.Dir v ∧ o.head g.root v = some (v.resolve g.root path)) := by
  constructor
  · exact hr.findClusterFromPath_eq (fun hhead => (h.find_cases h.root_mem (hdir hhead)).1) junk
  · rw [resolve]
    split
    · rename_i hhead
      rcases (h.find_cases h.root_mem (hdir hhead)).2 with
      hnone | ⟨-, hroot⟩ | ⟨k, i, ho, hP, hfind⟩
      · rw [hnone]
        exact .inl rfl
      · rw [hroot]
        exact .inr ⟨.root, trivial, trivial, rfl⟩
      · rw [hfind]
        exact .inr ⟨.slot k i, ho, hP.1, start_of_ne hP.2⟩
    · exact .inl rfl

theorem Tidy.head_mem (h : Tidy g v S L) (ho : o.In S v) (hdir : o.Dir v)
    (hc : o.head g.root v = some c) : c ∈ S ∧ Linked v.next c (L o) := by
  have hlist := h.family.lists o ho
  rw [hc] at hlist
  cases hlist with
  | linked hl => exact ⟨h.dirs o ho hdir c hl.mem_self, hl⟩

theorem Tidy.parent_mem (h : Tidy g v S L) (hr : Rep g m d v) (hdir : v.DirPath g.root path)
    (junk : ℕ → Buf) :
    findClusterFromPath g.part junk d path = v.resolve g.root path ∧
      (v.resolve g.root path = 0 ∨ v.resolve g.root path ∈ S) := by
  obtain ⟨hfind, hcases⟩ := h.parent hr hdir junk
  refine ⟨hfind, hcases.imp_right ?_⟩
  rintro ⟨o, ho, hd, hhead⟩
  exact (h.head_mem ho hd hhead).1

theorem scanEntry_hit {name : List UInt8} (h : scanEntry attr name b = .hit i) :
    i < slotsPerCluster ∧ slot b i 11 = attr ∧ cells 11 (slot b i) = name := by
  obtain ⟨hi, ⟨-, hhit⟩, -⟩ := scan_eq_hit_iff.mp h
  rw [Bool.and_eq_true, beq_iff_eq, beq_iff_eq] at hhit
  exact ⟨hi, hhit⟩

theorem ne_dot_of_scanEntry {t : List UInt8} (h : scanEntry attr (formatName83 t) b = .hit i) :
    slot b i 0 ≠ dot := by
  intro hdot
  apply formatName83_head_ne_dot t
  rw [← (scanEntry_hit h).2.2]
  exact congrArg some hdot

/-- **What follows `fat32_stat`** in four routines: the entry of the path is changed, if it was
found. -/
theorem Tidy.edit_parent (h : Tidy g v S L) (hr : Rep g m d v)
    (hdir : path.head? = some slash → v.DirPath g.root (parentPath path))
    {st : DirentStat} (hstat : fat32Stat g.part env.fuel (env.junk 0) d path = some st)
    (hr2 : Rep g m d2 v2) (hS : v2.Closed g.clusters S) {edit : Buf → Buf}
    (hedit : ∀ e e', SameEntry e e' → SameEntry (edit e) (edit e')) {w : Walk} {buf : Buf}
    (hrun : editEntry g.part attr (formatName83 st.name) edit d2 env.fuel st.parentClusterId buf =
      some (d', w)) :
    (∃ k i, k ∈ S ∧ v.resolve g.root (parentPath path) ∈ S ∧
        v2.Search (scanEntry attr (formatName83 ((lastName path).take 11)))
          (v.resolve g.root (parentPath path)) (.at k i) ∧
        Rep g m d' (v2.setSlot k i (edit (v2.slot k i)))) ∨
      d' = d2 ∧ (v.resolve g.root (parentPath path) ∈ S → st.type ≠ .notFound → path ≠ [slash] →
        ∀ k i, ¬ v2.Search (scanEntry attr (formatName83 ((lastName path).take 11)))
          (v.resolve g.root (parentPath path)) (.at k i)) := by
  have hzero : st.parentClusterId = 0 → d' = d2 := by
    intro hp
    rw [hp] at hrun
    generalize env.fuel = fuel at hrun
    cases fuel with
    | zero => cases hrun
    | succ fuel =>
      exact (Prod.mk.inj (some.inj hrun)).1.symm
  rcases fat32Stat_cases hstat with rfl | ⟨hroot, rfl⟩ | ⟨hhead, -, -, hname, hparent⟩
  · exact .inr ⟨hzero rfl, fun _ htype => absurd rfl htype⟩
  · exact .inr ⟨hzero rfl, fun _ _ hne => absurd hroot hne⟩
  · obtain ⟨hfind, hcases⟩ := h.parent_mem hr (hdir hhead) fun n => env.junk 0 (n + 2)
    rw [hfind] at hparent
    rw [hparent] at hzero hrun
    rcases hcases with hp | hp
    · refine .inr ⟨hzero hp, fun hmem => ?_⟩
      rw [hp] at hmem
      have := (h.closed 0 hmem).1.1
      omega
    · rw [hname] at hrun
      rcases editEntry_spec hr2 hS hedit hp hrun with
        ⟨k, i, hsearch, -, hrep⟩ | ⟨k, hsearch, -, rfl⟩ | ⟨k, hsearch, -, rfl⟩
      · exact .inl ⟨k, i, hS.reaches hp hsearch.at_spec.1, hp, hsearch, hrep⟩
      · exact .inr ⟨rfl, fun _ _ _ k' i' hat => by cases hsearch.unique hat⟩
      · exact .inr ⟨rfl, fun _ _ _ k' i' hat => by cases hsearch.unique hat⟩

end Paths

/-! ## Creating -/

section Create

variable {g : Geometry} {m : Prop} {d d' : Disk} {v : Vol} {S : Set ℕ} {L : Owner → List ℕ}
  {b k i : ℕ} {path name : List UInt8} {isDir : Bool} {type : UInt8} {buf : Buf}

theorem Rep.finishCreate_rep (h : Rep g m d v) (hb : b = 0 ∨ 2 ≤ b ∧ b < g.clusters) (isDir : Bool)
    (parent : ℕ) :
    Rep g False (finishCreate g.part isDir parent (d, b)) (v.finish isDir b parent) := by
  have hroot := g.root_lt
  have hbn : b < g.clusters := by
    unfold Geometry.clusters at *
    omega
  unfold finish finishCreate
  cases isDir with
  | false =>
    have hset := h.fatSetEntry_rep hbn fat32Eoc
    exact hset
  | true =>
    rcases hb with rfl | ⟨hb2, -⟩
    · have hset := h.fatSetEntry_rep hbn fat32Eoc
      exact hset
    · have hset := (h.writeCluster_rep hb2 hbn (dotEntries b parent)).2.fatSetEntry_rep hbn fat32Eoc
      rw [if_pos rfl, if_pos ⟨rfl, hb2⟩]
      exact hset

theorem Vol.blank_range (v : Vol) (n : ℕ) : v.blank n = 0 ∨ 2 ≤ v.blank n ∧ v.blank n < n := by
  rcases v.blank_cases n with ⟨hzero, -⟩ | ⟨hb2, hbn, -⟩
  · exact .inl hzero
  · exact .inr ⟨hb2, hbn⟩

theorem Rep.createDirentEntry_rep (h : Rep g m d v) (hk2 : 2 ≤ k) (hk : k < g.clusters)
    (hbuf : SameCluster buf (v.data k)) (i : ℕ) (type : UInt8) (name : List UInt8) :
    (createDirentEntry g.part d buf i type name).2 = v.blank g.clusters ∧
      Rep g m (writeCluster g.part d k (createDirentEntry g.part d buf i type name).1).1
        (v.setSlot k i (newEntry name type (v.blank g.clusters))) := by
  rw [createDirentEntry, h.findBlankCluster_eq]
  exact ⟨rfl, h.writeSlot_rep hk2 hk hbuf i _⟩

theorem Tidy.zero_not_mem (h : Tidy g v S L) : 0 ∉ S :=
  fun hmem => absurd (h.closed 0 hmem).1.1 (by decide)

theorem Tidy.blank_not_mem (h : Tidy g v S L) : v.blank g.clusters ∉ S := by
  rcases v.blank_cases g.clusters with ⟨hzero, -⟩ | ⟨-, -, hfree⟩
  · rw [hzero]
    exact h.zero_not_mem
  · exact (h.not_mem_of_free hfree).1

theorem create_in_slot (hr : Rep g m d v) (h : Tidy g v S L) (hk : k ∈ S) (hi : i < slotsPerCluster)
    (hfree : IsFree (v.slot k i)) (hbuf : SameCluster buf (v.data k)) (hname : name.length = 11)
    (isDir : Bool) (parent : ℕ) {q : ℕ} (hq : Reaches v.next q k) :
    let v' := (v.setSlot k i (newEntry name (if isDir then 0x10 else 0x20)
      (v.blank g.clusters))).finish isDir (v.blank g.clusters) parent
    ∃ S' L', Tidy g v' S' L' ∧ Rep g False (finishCreate g.part isDir parent
      ((writeCluster g.part d k
          (createDirentEntry g.part d buf i (if isDir then 0x10 else 0x20) name).1).1,
        (createDirentEntry g.part d buf i (if isDir then 0x10 else 0x20) name).2)) v' ∧
      Grown S q name v (k, i) S' v' := by
  obtain ⟨⟨hk2, hkn⟩, -⟩ := h.closed k hk
  obtain ⟨hcluster, hentry⟩ := hr.createDirentEntry_rep hk2 hkn hbuf i
    (if isDir then 0x10 else 0x20) name
  obtain ⟨L', htidy⟩ := h.create hk hi hfree hname isDir parent
  rw [hcluster]
  exact ⟨_, L', htidy, hentry.finishCreate_rep (blank_range _ _) isDir parent,
    (Grown.of_setSlot hk hi hq (newEntry_name hname)).finish h.blank_not_mem
      (ne_of_mem_of_not_mem hk h.blank_not_mem) isDir parent⟩

/-- An entry whose directory does not exist goes into a cluster that no directory has, or is
lost. -/
theorem place_lost (hr : Rep g m d v) (h : Tidy g v S L) (e : Buf) :
    ∃ v' L', Tidy g v' S L' ∧ Rep g False (placeEntry g.part d e (.absent 0)) v' ∧
      Vol.AgreeOn S v v' ∧ findBlankCluster g.part (extendDirentCluster g.part d 0
        (findBlankCluster g.part d)) = v'.blank g.clusters := by
  have hroot := g.root_lt
  have hzeron : 0 < g.clusters := by
    unfold Geometry.clusters
    omega
  rw [placeEntry, hr.findBlankCluster_eq]
  rcases v.blank_cases g.clusters with ⟨hzero, -⟩ | ⟨hb2, hbn, hbfree⟩
  · -- no cluster is left either
    have hext := hr.extendDirentCluster_zero hzeron
    have hidem : (v.setFat 0 0).setFat 0 0x0FFFFFFF = v.setFat 0 0x0FFFFFFF :=
      Vol.ext (update_idem ..) rfl
    rw [hidem] at hext
    rw [hzero, Rep.writeCluster_of_lt _ _ (by decide)]
    exact ⟨_, _, h.clearLost (by decide), hext, v.agreeOn_setFat h.zero_not_mem _,
      hext.findBlankCluster_eq⟩
  · have hbS := (h.not_mem_of_free hbfree).1
    have hext := hr.extendDirentCluster_rep hzeron hb2 hbn
    exact ⟨_, _, (h.extendLost ⟨hb2, hbn⟩ hbfree).setData_of_not_mem hbS _,
      hext.writeSlot_rep hb2 hbn (v.extended_same 0 _) 0 e,
      (v.agreeOn_extended h.zero_not_mem hbS).trans (agreeOn_setData _ hbS _),
      hext.findBlankCluster_eq⟩

theorem create_lost (hr : Rep g m d v) (h : Tidy g v S L) (isDir : Bool) (name : List UInt8) :
    ∃ v' L', Tidy g v' S L' ∧ Rep g False (finishCreate g.part isDir 0
      (placeNew g.part d (if isDir then 0x10 else 0x20) name (.absent 0))) v' ∧
      Vol.AgreeOn S v v' := by
  obtain ⟨v', L', htidy, hrep, hagree, hblank⟩ := place_lost hr h (newEntry name
    (if isDir then 0x10 else 0x20) (findBlankCluster g.part (extendDirentCluster g.part d 0
      (findBlankCluster g.part d))))
  obtain ⟨L'', hleak⟩ := htidy.leak isDir 0
  rw [placeNew, createDirentEntry, hblank]
  rw [placeEntry, hblank] at hrep
  exact ⟨_, L'', hleak, hrep.finishCreate_rep (v'.blank_range g.clusters) isDir 0,
    hagree.trans (agreeOn_finish _ htidy.blank_not_mem isDir 0)⟩

theorem Vol.Search.full (hsearch : v.Search scanFree p (.absent z)) (hk : Reaches v.next p k)
    (hi : i < slotsPerCluster) : ¬ IsFree (v.slot k i) := by
  have hmiss := (scan_eq_exhausted_iff.mp (hsearch.absent_spec.2.2 k hk) i hi).2
  rw [Bool.or_eq_false_iff, beq_eq_false_iff_ne, beq_eq_false_iff_ne] at hmiss
  exact not_or.mpr hmiss.symm

theorem Vol.HasRoom.blank (hroom : v.HasRoom g.clusters p)
    (hsearch : v.Search scanFree p (.absent z)) :
    2 ≤ v.blank g.clusters ∧ v.blank g.clusters < g.clusters ∧ v.fat (v.blank g.clusters) = 0 := by
  rcases v.blank_cases g.clusters with ⟨-, hnone⟩ | hsome
  · rcases hroom with ⟨k, i, hk, hi, hfree⟩ | ⟨b, hb2, hbn, hbfree⟩
    · exact absurd hfree (hsearch.full hk hi)
    · exact absurd hbfree (hnone b hb2 hbn)
  · exact hsome

theorem Tidy.last_of_absent (h : Tidy g v S L) (ho : o.In S v) (hl : Linked v.next p (L o))
    {scan : Buf → Scan} (hsearch : v.Search scan p (.absent z)) :
    z < g.clusters ∧ (L o).getLast? = some z := by
  obtain ⟨hreach, hend, -⟩ := hsearch.absent_spec
  have hz : z ∈ L o := hl.mem_iff_reaches.mpr hreach
  exact ⟨(h.range o ho z hz).2, hl.getLast_of_end hz hend⟩

/-- **Creating puts one entry into the parent directory**, if it is a directory with room: into the
free slot that the search finds, or into one that no directory had. -/
theorem create_grown (hr : Rep g m d v) (h : Tidy g v S L)
    (hhead : path.head? = some slash) (hdir : v.DirPath g.root (parentPath path)) {q : ℕ}
    (hq : v.resolve g.root (parentPath path) = q) (hroom : q ≠ 0 → v.HasRoom g.clusters q)
    (hrun : fat32Create g.part env d path isDir = some (d', r)) :
    ∃ v' S' L' p, Tidy g v' S' L' ∧ Rep g False d' v' ∧
      Grown S q (formatName83 (lastName path)) v p S' v' ∧ (p.1 ∈ S' → q ≠ 0) ∧
        ∃ e, Placed S p e v v' ∧ cells 11 e = formatName83 (lastName path) ∧
          (p.1 ∈ S → v.Search scanFree q (.at p.1 p.2)) := by
  rw [fat32Create, if_neg (not_not.mpr hhead)] at hrun
  obtain ⟨hfind, hcases⟩ := h.parent hr hdir (env.junk 0)
  have hname := length_formatName83 (lastName path)
  rw [hfind, hq] at hrun
  rw [hq] at hcases
  obtain ⟨place, hplace, hresult⟩ := map_eq_some_iff.mp hrun
  cases hresult
  rcases hcases with rfl | ⟨o, ho, hod, hhead'⟩
  · generalize env.fuel = fuel at hplace
    cases fuel with
    | zero => cases hplace
    | succ fuel =>
      cases hplace
      obtain ⟨v', L', htidy, hrep, hagree⟩ := create_lost hr h isDir (formatName83 (lastName path))
      exact ⟨v', S, L', (0, 0), htidy, hrep, .of_agreeOn h.closed h.zero_not_mem hagree,
        fun hmem => absurd hmem h.zero_not_mem, newEntry (formatName83 (lastName path)) 0 0,
        .of_agreeOn _ h.zero_not_mem hagree, newEntry_name hname,
        fun hmem => absurd hmem h.zero_not_mem⟩
  · obtain ⟨hpS, hl⟩ := h.head_mem ho hod hhead'
    have hpne : q ≠ 0 := ne_of_mem_of_not_mem hpS h.zero_not_mem
    rcases findFreeSlot_spec hr h.closed hpS hplace with
      ⟨k, i, b, hsearch, hb, rfl⟩ | ⟨z, hsearch, rfl⟩
    · obtain ⟨hreach, hscan⟩ := hsearch.at_spec
      obtain ⟨hi, hfree⟩ := isFree_of_scanFree hscan
      obtain ⟨S', L', htidy, hrep, hgrown⟩ :=
        create_in_slot hr h (h.closed.reaches hpS hreach) hi hfree hb hname isDir _ hreach
      exact ⟨_, S', L', (k, i), htidy, hrep, hgrown, fun _ => hpne, _,
        (Placed.of_setSlot S hi hfree _).agree (agreeOn_finish _ h.blank_not_mem isDir _),
        newEntry_name hname, fun _ => hsearch⟩
    · -- the new entry is the first of a further cluster
      obtain ⟨hb2, hbn, hbfree⟩ := (hroom hpne).blank hsearch
      obtain ⟨hzn, hlast⟩ := h.last_of_absent ho hl hsearch
      obtain ⟨hreach, hend, -⟩ := hsearch.absent_spec
      have hbS := (h.not_mem_of_free hbfree).1
      have hext := hr.extendDirentCluster_rep hzn hb2 hbn
      have hdirs := h.extendDir ho hod hlast ⟨hb2, hbn⟩ hbfree
      rw [placeNew, hr.findBlankCluster_eq]
      obtain ⟨S', L', htidy, hrep, hgrown⟩ := create_in_slot (i := 0) hext hdirs (.inl rfl)
        (by decide) (.inl (v.extended_slot z _ (by decide) (by decide))) (v.extended_same z _) hname
        isDir _ .refl
      exact ⟨_, S', L', _, htidy, hrep, .after_extend h.closed (h.closed.reaches hpS hreach)
        hbS hreach hgrown, fun _ => hpne, _, (Placed.of_extended hend hbS _).agree
          (agreeOn_finish _ (fun hmem => hdirs.blank_not_mem (.inr hmem)) isDir _),
        newEntry_name hname, fun hmem => absurd hmem hbS⟩

/-- **Creating keeps the volume tidy**, if the parent is a directory with room or does not exist. -/
theorem create_tidy (hr : Rep g m d v) (h : Tidy g v S L)
    (hok : path.head? = some slash → v.DirPath g.root (parentPath path) ∧
      (v.resolve g.root (parentPath path) ≠ 0 →
        v.HasRoom g.clusters (v.resolve g.root (parentPath path))))
    (hrun : fat32Create g.part env d path isDir = some (d', r)) :
    ∃ v' S' L', Tidy g v' S' L' ∧ Rep g (m ∧ path.head? ≠ some slash) d' v' := by
  by_cases hhead : path.head? = some slash
  · obtain ⟨hdir, hroom⟩ := hok hhead
    obtain ⟨v', S', L', -, htidy, hrep, -⟩ := create_grown hr h hhead hdir rfl hroom hrun
    exact ⟨v', S', L', htidy, hrep.mono fun hm => hm.2 hhead⟩
  · rw [fat32Create, if_pos hhead] at hrun
    cases hrun
    exact ⟨v, S, L, h, hr.mono And.left⟩

end Create

/-! ## Writing -/

section Write

variable {g : Geometry} {m : Prop} {d d' : Disk} {v : Vol} {S W : Set ℕ} {L : Owner → List ℕ}
  {b c : ℕ} {path : List UInt8} {env : FatEnv} {buf : Buf} {offset size : ℕ} {r : ℤ}

section

variable (hr : Rep g m d v) (h : Tidy g v S L)
  (hdir : path.head? = some slash → v.DirPath g.root (parentPath path))
include hr h hdir

theorem setFileSize_tidy {newSize : ℕ} (hrun : setFileSize g.part env d path newSize = some d') :
    ∃ v', Rep g m d' v' ∧ Tidy g v' S L := by
  obtain ⟨st, hstat, hedit⟩ := bind_eq_some_iff.mp hrun
  obtain ⟨⟨d1, w⟩, hwalk, rfl⟩ := map_eq_some_iff.mp hedit
  rcases h.edit_parent hr hdir hstat hr h.closed (fun e e' he => he.withSize newSize) hwalk with
    ⟨k, i, hk, -, hsearch, hrep⟩ | ⟨rfl, -⟩
  · refine ⟨_, hrep, ?_⟩
    exact h.resize hk (scanEntry_hit hsearch.at_spec.2).1 (live_withSize _ _) (isDir_withSize _ _)
      (withSize_cluster _ _) (withSize_of_lt _ _ (by decide))
  · exact ⟨v, hr, h⟩

/-- `set_file_first_cluster` gives a file a new chain of one cluster. -/
theorem setFileFirstCluster_tidy (hb : 2 ≤ b ∧ b < g.clusters) (hbS : b ∉ S)
    (hbL : ∀ o, o.In S v → b ∉ L o) (hend : v.next b = none)
    (hrun : setFileFirstCluster g.part env d path b = some d') :
    ∃ v' L', Rep g m d' v' ∧ Tidy g v' S L' ∧ v'.fat = v.fat ∧ Vol.SameDirs S v v' := by
  have hsame : Vol.SameDirs S v v := Vol.SameDirs.of_data fun _ _ => rfl
  have hle := g.clusters_le
  obtain ⟨st, hstat, hrest⟩ := bind_eq_some_iff.mp hrun
  split at hrest
  · cases hrest
    exact ⟨v, L, hr, h, rfl, hsame⟩
  split at hrest
  · cases hrest
    exact ⟨v, L, hr, h, rfl, hsame⟩
  obtain ⟨⟨d1, w⟩, hwalk, rfl⟩ := map_eq_some_iff.mp hrest
  rcases h.edit_parent hr hdir hstat hr h.closed (fun e e' he => he.withCluster b) hwalk with
    ⟨k, i, hk, -, hsearch, hrep⟩ | ⟨rfl, -⟩
  · obtain ⟨hi, hattr, -⟩ := scanEntry_hit hsearch.at_spec.2
    have hfile : ¬ IsDir (v.slot k i) := by
      rw [IsDir, show v.slot k i 11 = 0x20 from hattr]
      decide
    have hfile' : ¬ IsDir (withCluster b (v.slot k i)) := fun hd =>
      hfile ((isDir_withCluster _ _).mp hd)
    refine ⟨_, update L (.slot k i) [b], hrep, ?_, rfl, ?_⟩
    · exact h.setSlot_single hk hi (withCluster_cluster (by omega) _) hb hbL hend
        (fun hd => absurd hd hfile') (fun _ => hbS)
        fun hdot => (withCluster_of_lt _ _ (by decide)).trans hdot
    · intro k' _ i' hi'
      by_cases hslot : (k', i') = (k, i)
      · obtain ⟨rfl, rfl⟩ := Prod.mk.inj hslot
        have hself := v.setSlot_slot_self k' hi (withCluster b (v.slot k' i'))
        refine ⟨fun j hj => ?_, fun hd => absurd hd hfile⟩
        rw [hself j (by omega), withCluster_of_lt _ _ (by omega)]
      · have hother := v.setSlot_slot_of_ne (e := withCluster b (v.slot k i)) hi' hslot
        exact ⟨fun j hj => hother j (by omega), fun _ => hother.cluster⟩
  · exact ⟨v, L, hr, h, rfl, hsame⟩

end

/-- The clusters that a walk from a chain outside the directories visits: behind its end it goes on
with the chain of the first entry of the FAT. -/
theorem Tidy.walk_closed (h : Tidy g v S L) {l : List ℕ}
    (hl : ∀ x ∈ l, (2 ≤ x ∧ x < g.clusters) ∧ x ∉ S ∧ ∀ y, v.next x = some y → y ∈ l) :
    ∀ x ∈ {x | x = 0 ∨ x ∈ l ∨ x ∈ L .lost},
      (x < g.clusters ∧ v.follow x ∈ {x | x = 0 ∨ x ∈ l ∨ x ∈ L .lost}) ∧ x ∉ S := by
  have hroot := g.root_lt
  have hzero : 0 ∉ S := fun hmem => absurd (h.closed 0 hmem).1.1 (by decide)
  rintro x (rfl | hx | hx)
  · refine ⟨⟨by unfold Geometry.clusters; omega, ?_⟩, hzero⟩
    by_cases hf : v.follow 0 = 0
    · exact .inl hf
    · have hlist := h.family.lists .lost trivial
      rw [Owner.head, start_of_ne hf] at hlist
      cases hlist with
      | linked hlost => exact .inr (.inr hlost.mem_self)
  · obtain ⟨hrange, hS, hnext⟩ := hl x hx
    refine ⟨⟨hrange.2, ?_⟩, hS⟩
    rcases hn : v.next x with - | y
    · exact .inl (v.follow_of_next_none hn)
    · rw [v.follow_of_next_some hn]
      exact .inr (.inl (hnext y hn))
  · refine ⟨⟨(h.range .lost trivial x hx).2, ?_⟩, h.files .lost trivial id x hx⟩
    rcases hn : v.next x with - | y
    · exact .inl (v.follow_of_next_none hn)
    · rw [v.follow_of_next_some hn]
      exact .inr (.inr (h.next_mem (o := .lost) trivial hx hn))

/-- Writing from a cluster of a chain outside the directories. -/
theorem writeAt_tidy (hr : Rep g m d v) (h : Tidy g v S L)
    (hdir : path.head? = some slash → v.DirPath g.root (parentPath path))
    (hW : ∀ x ∈ W, (x < g.clusters ∧ v.follow x ∈ W) ∧ x ∉ S) (hc : c ∈ W)
    (hrun : writeAt g.part env d path buf offset size c = some (d', r)) :
    ∃ v', Rep g m d' v' ∧ Tidy g v' S L := by
  have hW' : ∀ x ∈ W, x < g.clusters ∧ v.follow x ∈ W := fun x hx => (hW x hx).1
  rw [writeAt] at hrun
  split at hrun
  · cases hrun
    exact ⟨v, hr, h⟩
  split at hrun
  · cases hrun
    exact ⟨v, hr, h⟩
  rename_i c' hskip
  obtain ⟨v', hr', hfat, hdata⟩ := hr.writeLoop_rep hW' buf size size (offset % clusterSize) 0
    (hr.skipClusters_mem hW' hc hskip)
  have hdata' : ∀ k ∈ S, v'.data k = v.data k := fun k hk => hdata k fun hkW => (hW k hkW).2 hk
  have h' := h.write hfat hdata'
  split at hrun
  · rename_i d1 total error hloop
    rw [hloop] at hr'
    cases hrun
    exact ⟨v', hr', h'⟩
  · rename_i d1 total hloop
    rw [hloop] at hr'
    split at hrun
    · obtain ⟨d2, hsize, hresult⟩ := map_eq_some_iff.mp hrun
      cases hresult
      refine setFileSize_tidy hr' h' ?_ hsize
      intro hhead hhead'
      exact h.leads_congr (Vol.SameDirs.of_data hdata') h.root_mem (hdir hhead hhead')
    · cases hrun
      exact ⟨v', hr', h'⟩

/-- **Writing keeps the volume tidy**, if the path leads to a file or is not found. -/
theorem write_tidy (hr : Rep g m d v) (h : Tidy g v S L)
    (hok : path.head? = some slash → v.DirPath g.root (parentPath path) ∧ tokens path ≠ [] ∧
      v.Leads (fun e => ¬ IsDir e) (tokens path) g.root)
    (hrun : fat32WriteFileBytes g.part env d path buf offset size = some (d', r)) :
    ∃ v' L', Rep g m d' v' ∧ Tidy g v' S L' := by
  have hdir : path.head? = some slash → v.DirPath g.root (parentPath path) := fun hh => (hok hh).1
  have hfind := hr.findClusterFromPath_eq
    (fun hh => (h.find_cases h.root_mem (hok hh).2.2).1) (env.junk 0)
  rw [fat32WriteFileBytes, hfind] at hrun
  dsimp only at hrun
  split at hrun
  · -- the file gets its first cluster
    rw [hr.findBlankCluster_eq] at hrun
    split at hrun
    · cases hrun
      exact ⟨v, L, hr, h⟩
    · rcases v.blank_cases g.clusters with ⟨hzero, -⟩ | ⟨hb2, hbn, hbfree⟩
      · omega
      obtain ⟨hbS, hbL⟩ := h.not_mem_of_free hbfree
      obtain ⟨d1, hfirst, hwrite⟩ := bind_eq_some_iff.mp hrun
      have hmark := h.setFat_of_not_mem (by omega) hbS hbL fat32Eoc
      have hrmark := hr.fat32SetFatEntry_rep hbn fat32Eoc
      have hend : (v.setFat (v.blank g.clusters) fat32Eoc).next (v.blank g.clusters) = none := by
        rw [Vol.next, setFat_fat, update_self, if_pos le_rfl]
      have hsame : Vol.SameDirs S v (v.setFat (v.blank g.clusters) fat32Eoc) :=
        Vol.SameDirs.of_data fun _ _ => rfl
      obtain ⟨v1, L1, hr1, h1, hfat1, hsame1⟩ := setFileFirstCluster_tidy hrmark hmark
        (fun hh hh' => h.leads_congr hsame h.root_mem (hdir hh hh')) ⟨hb2, hbn⟩ hbS hbL hend hfirst
      have hend1 : v1.next (v.blank g.clusters) = none := by
        rw [Vol.next, hfat1]
        exact hend
      have hW := h1.walk_closed (l := [v.blank g.clusters]) (by
        intro x hx
        obtain rfl := List.mem_singleton.mp hx
        exact ⟨⟨hb2, hbn⟩, hbS, fun y hy => by cases hend1.symm.trans hy⟩)
      obtain ⟨v', hr', h'⟩ := writeAt_tidy hr1 h1
        (fun hh hh' => h.leads_congr (hsame.trans hsame1) h.root_mem (hdir hh hh')) hW
        (.inr (.inl List.mem_cons_self)) hwrite
      exact ⟨v', L1, hr', h'⟩
  · rename_i hne
    -- a file with a chain
    have hhead : path.head? = some slash := by
      by_contra hhead
      rw [resolve, if_neg hhead] at hne
      exact hne rfl
    rw [resolve, if_pos hhead] at hne hrun
    obtain ⟨-, htokens, hlead⟩ := hok hhead
    rcases (h.find_cases h.root_mem hlead).2 with hnone | ⟨hnil, -⟩ | ⟨k, i, ho, hfile, hsome⟩
    · rw [hnone] at hne
      exact absurd rfl hne
    · exact absurd hnil htokens
    · rw [hsome, getD_some] at hne hrun
      have hW := h.walk_closed (l := L (.slot k i)) (by
        intro x hx
        exact ⟨h.range _ ho x hx, h.files _ ho hfile x hx, fun y hy => h.next_mem ho hx hy⟩)
      obtain ⟨v', hr', h'⟩ := writeAt_tidy hr h hdir hW
        (.inr (.inl (h.linked_slot ho hne).mem_self)) hrun
      exact ⟨v', L, hr', h'⟩

end Write

/-! ## Truncating and removing -/

section Remove

variable {g : Geometry} {m : Prop} {d d' : Disk} {v : Vol} {S : Set ℕ} {L : Owner → List ℕ}
  {path : List UInt8} {env : FatEnv} {r : ℤ}

/-- The entry that `fat32_truncate_file` clears is the one whose chain it frees. -/
def Vol.Owns (root : ℕ) (v : Vol) (path : List UInt8) : Prop :=
  v.resolve root (parentPath path) ≠ 0 ∧
    ∃ k i, v.Search (scanEntry 0x20 (formatName83 ((lastName path).take 11)))
      (v.resolve root (parentPath path)) (.at k i) ∧ Live (v.slot k i) ∧
        getEntryCluster (v.slot k i) = v.resolve root path

/-- **Truncating keeps the volume tidy**, if the chain that is freed is that of the entry. -/
theorem truncate_tidy (hr : Rep g m d v) (h : Tidy g v S L)
    (hok : path.head? = some slash → path ≠ [slash] → v.DirPath g.root (parentPath path) ∧
      v.Leads (fun _ => True) (tokens path) g.root ∧
        (v.resolve g.root path ≠ 0 → v.Owns g.root path))
    (hrun : fat32TruncateFile g.part env d path = some (d', r)) :
    ∃ v' L', Rep g m d' v' ∧ Tidy g v' S L' := by
  rw [fat32TruncateFile] at hrun
  split at hrun
  · cases hrun
    exact ⟨v, L, hr, h⟩
  rename_i hhead
  split at hrun
  · cases hrun
    exact ⟨v, L, hr, h⟩
  rename_i hroot
  obtain ⟨hdir, hlead, howns⟩ := hok (not_not.mp hhead) hroot
  obtain ⟨st, hstat, hrest⟩ := bind_eq_some_iff.mp hrun
  split at hrest
  · cases hrest
    exact ⟨v, L, hr, h⟩
  rename_i htype
  split at hrest
  · cases hrest
    exact ⟨v, L, hr, h⟩
  rw [hr.findClusterFromPath_eq (fun _ => (h.find_cases h.root_mem hlead).1)] at hrest
  obtain ⟨d1, hfree, hedit⟩ := bind_eq_some_iff.mp hrest
  obtain ⟨⟨d2, w⟩, hwalk, hresult⟩ := map_eq_some_iff.mp hedit
  cases hresult
  have hlocal : ∀ e e', SameEntry e e' →
      SameEntry (withSize 0 (withCluster 0 e)) (withSize 0 (withCluster 0 e')) :=
    fun e e' he => (he.withCluster 0).withSize 0
  have hnew : ∀ e, getEntryCluster (withSize 0 (withCluster 0 e)) = 0 := by
    intro e
    rw [withSize_cluster, withCluster_cluster (by decide)]
  have hkeep : ∀ e : Buf, e 0 = dot → withSize 0 (withCluster 0 e) 0 = dot := by
    intro e hdot
    rw [withSize_of_lt _ _ (by decide), withCluster_of_lt _ _ (by decide), hdot]
  by_cases hzero : v.resolve g.root path = 0
  · -- there is no chain
    rw [hzero] at hfree
    have hsame : d1 = d := by
      generalize env.fuel = fuel at hfree
      cases fuel with
      | zero => cases hfree
      | succ fuel =>
        exact (some.inj hfree).symm
    subst hsame
    rcases h.edit_parent hr (fun _ => hdir) hstat hr h.closed hlocal hwalk with
      ⟨k, i, hk, -, hsearch, hrep⟩ | ⟨rfl, -⟩
    · exact ⟨_, _, hrep, h.setSlot_none hk (scanEntry_hit hsearch.at_spec.2).1 (hnew _) (hkeep _)⟩
    · exact ⟨v, L, hr, h⟩
  · obtain ⟨hpne, k, i, hsearch, hlive, hcluster⟩ := howns hzero
    have hpS := ((h.parent_mem hr hdir (env.junk 0)).2).resolve_left hpne
    obtain ⟨hreach, hscan⟩ := hsearch.at_spec
    obtain ⟨hi, hattr, -⟩ := scanEntry_hit hscan
    have ho : (Owner.slot k i).In S v := ⟨h.closed.reaches hpS hreach, hi, hlive⟩
    have hfile : ¬ IsDir (v.slot k i) := by
      rw [IsDir, show v.slot k i 11 = 0x20 from hattr]
      decide
    rw [← hcluster] at hzero hfree
    have hr1 := hr.freeChain_rep (h.linked_slot ho hzero) (h.range _ ho) hfree
    -- the parent directory is not changed by that
    have hnext : ∀ x ∈ S, (v.clear (L (.slot k i))).next x = v.next x := by
      intro x hx
      rw [Vol.next, Vol.next, v.clear_fat_of_not_mem fun hmem => h.files _ ho hfile x hmem hx]
    have hclosed : (v.clear (L (.slot k i))).Closed g.clusters S := by
      intro x hx
      rw [hnext x hx]
      exact h.closed x hx
    have hsearch1 : (v.clear (L (.slot k i))).Search
        (scanEntry 0x20 (formatName83 ((lastName path).take 11)))
        (v.resolve g.root (parentPath path)) (.at k i) :=
      hsearch.congr fun x hx => ⟨rfl, hnext x (h.closed.reaches hpS hx)⟩
    rcases h.edit_parent hr (fun _ => hdir) hstat hr1 hclosed hlocal hwalk with
      ⟨k', i', -, -, hsearch', hrep⟩ | ⟨-, hnone⟩
    · cases hsearch'.unique hsearch1
      exact ⟨_, _, hrep, h.release ho hfile (hnew _) (hkeep _)⟩
    · exact absurd hsearch1 (hnone hpS htype hroot k i)

/-- **Removing an entry keeps the volume tidy**, if its parent is a directory or is not found. -/
theorem removeEntry_tidy (hr : Rep g m d v) (h : Tidy g v S L) {rootError refusedError : ℤ}
    {refused : PathType} (hdir : path.head? = some slash → v.DirPath g.root (parentPath path))
    (hrun : removeEntry g.part rootError refused refusedError attr env d path = some (d', r)) :
    ∃ v' L', Rep g m d' v' ∧ Tidy g v' S L' := by
  rw [removeEntry] at hrun
  split at hrun
  · cases hrun
    exact ⟨v, L, hr, h⟩
  split at hrun
  · cases hrun
    exact ⟨v, L, hr, h⟩
  obtain ⟨st, hstat, hrest⟩ := bind_eq_some_iff.mp hrun
  split at hrest
  · cases hrest
    exact ⟨v, L, hr, h⟩
  split at hrest
  · cases hrest
    exact ⟨v, L, hr, h⟩
  obtain ⟨⟨d1, w⟩, hwalk, hresult⟩ := map_eq_some_iff.mp hrest
  cases hresult
  rcases h.edit_parent hr hdir hstat hr h.closed (fun _ _ _ _ _ => rfl) hwalk with
    ⟨k, i, hk, -, hsearch, hrep⟩ | ⟨rfl, -⟩
  · have hscan := hsearch.at_spec.2
    exact ⟨_, _, hrep, h.kill hk (scanEntry_hit hscan).1 not_live_erased
      fun hdot => absurd hdot (ne_dot_of_scanEntry hscan)⟩
  · exact ⟨v, L, hr, h⟩

end Remove

end CarrotOS.Fat32
