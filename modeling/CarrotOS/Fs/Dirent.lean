import CarrotOS.Fs.Descriptor
import CarrotOS.Fs.Sharing

/-!
# Files and directories by path (`core/filesytem/filesystem.h`)

`mkfile`, `mkdir`, `rename_dirent` and `delete_dirent` look for the mount point of a path and call
the driver of its partition with the rest of the path. The partition that is registered is the FAT32
one. The rest of the path ends with a byte of a buffer that has no contents yet, unless that byte is
0.

None of these calls asks whether a name exists. A sequence of calls keeps the names of every
directory apart if each name is new when it is given.
-/

namespace CarrotOS.Fat32

open LinkTable Transition Option

variable {isDir : Bool}

/-! ## The calls -/

/-- What the environment decides in a call: what happens in the driver's function and in
`fat32_stat`, and the byte behind the path in each buffer `child_path`. -/
structure DirentEnv where
  fat : FatEnv
  stat : FatEnv
  byte : ℕ → UInt8

section Calls

variable {σ : Type} (vfs : Vfs σ) (device part : ℕ)

/-- The path on the partition. The driver is called if the mount point leads to `device`, which is
the address of `fat32_device`. -/
def childPath (path : List UInt8) (byte : UInt8) : Option (List UInt8) := do
  let mountId ← vfs.findMountByPath path
  let mp ← vfs.mountGlobal mountId
  if mp.part = device then
    some (childString (vfs.getMountDeepLevel mountId) path byte)
  else none

def mkfile (env : DirentEnv) (d : Disk) (path : List UInt8) : Option (Disk × ℤ) := do
  let child ← childPath vfs device path (env.byte 0)
  fat32Create part env.fat d child false

def mkdir (env : DirentEnv) (d : Disk) (path : List UInt8) : Option (Disk × ℤ) := do
  let child ← childPath vfs device path (env.byte 0)
  fat32Create part env.fat d child true

/-- `stat_dirent`, with a buffer of its own. -/
def statDirent (env : DirentEnv) (d : Disk) (path : List UInt8) : Option DirentStat := do
  let child ← childPath vfs device path (env.byte 2)
  fat32Stat part env.stat.fuel (env.stat.junk 0) d child

/-- `rename_dirent`, whose result is left out: `fat32_rename` returns none. -/
def renameDirent (env : DirentEnv) (d : Disk) (pathSrc pathDes : List UInt8) : Option Disk := do
  let srcMntId ← vfs.findMountByPath pathSrc
  let dstMntId ← vfs.findMountByPath pathDes
  if srcMntId ≠ dstMntId then some d
  else do
    let src ← childPath vfs device pathSrc (env.byte 0)
    let des ← childPath vfs device pathDes (env.byte 1)
    let stat ← statDirent vfs device part env d pathSrc
    match stat.type with
    | .file => fat32Rename part env.fat d src des false
    | .directory => fat32Rename part env.fat d src des true
    | .notFound => some d

/-- `delete_dirent`. The driver's function is `fat32_rmdir_entry` for files too, and its result is
turned into a `bool`. -/
def deleteDirent (env : DirentEnv) (d : Disk) (path : List UInt8) : Option (Disk × Bool) := do
  let child ← childPath vfs device path (env.byte 0)
  let stat ← statDirent vfs device part env d path
  match stat.type with
  | .file | .directory => (fat32RmdirEntry part env.fat d child).map fun r => (r.1, r.2 != 0)
  | .notFound => some (d, false)

inductive DirentCall where
  | mkfile (path : List UInt8)
  | mkdir (path : List UInt8)
  | rename (pathSrc pathDes : List UInt8)

def DirentCall.step (d : Disk) : DirentEnv × DirentCall → Option Disk
  | (env, .mkfile path) => (Fat32.mkfile vfs device part env d path).map Prod.fst
  | (env, .mkdir path) => (Fat32.mkdir vfs device part env d path).map Prod.fst
  | (env, .rename pathSrc pathDes) => renameDirent vfs device part env d pathSrc pathDes

/-- The call of the driver that changes the volume. Renaming calls none if there are two mount
points or nothing is found. -/
inductive DirentCall.Drives (env : DirentEnv) (d : Disk) : DirentCall → FatCall → Prop
  | mkfile {path child : List UInt8} (h : childPath vfs device path (env.byte 0) = some child) :
    Drives env d (.mkfile path) (.create child false)
  | mkdir {path child : List UInt8} (h : childPath vfs device path (env.byte 0) = some child) :
    Drives env d (.mkdir path) (.create child true)
  | rename {pathSrc pathDes src des : List UInt8} {stat : DirentStat}
    (hsrc : childPath vfs device pathSrc (env.byte 0) = some src)
    (hdes : childPath vfs device pathDes (env.byte 1) = some des)
    (hstat : statDirent vfs device part env d pathSrc = some stat)
      (hfound : stat.type ≠ .notFound) :
    Drives env d (.rename pathSrc pathDes) (.rename src des (stat.type = .directory))

variable {vfs device part} {env : DirentEnv} {d d' : Disk} {call : DirentCall}

/-- **What a call does**: nothing, or one call of the driver. -/
theorem DirentCall.step_cases (h : DirentCall.step vfs device part d (env, call) = some d') :
    d' = d ∨ ∃ c, call.Drives vfs device part env d c ∧
    FatCall.step part d (env.fat, c) = some d' := by
  cases call with
  | mkfile path =>
    obtain ⟨r, hr, rfl⟩ := map_eq_some_iff.mp h
    obtain ⟨child, hchild, hcreate⟩ := bind_eq_some_iff.mp hr
    exact .inr ⟨_, .mkfile hchild, by rw [FatCall.step, hcreate, map_some]⟩
  | mkdir path =>
    obtain ⟨r, hr, rfl⟩ := map_eq_some_iff.mp h
    obtain ⟨child, hchild, hcreate⟩ := bind_eq_some_iff.mp hr
    exact .inr ⟨_, .mkdir hchild, by rw [FatCall.step, hcreate, map_some]⟩
  | rename pathSrc pathDes =>
    obtain ⟨srcMntId, -, h⟩ := bind_eq_some_iff.mp h
    obtain ⟨dstMntId, -, h⟩ := bind_eq_some_iff.mp h
    split at h
    · exact .inl (some.inj h).symm
    obtain ⟨src, hsrc, h⟩ := bind_eq_some_iff.mp h
    obtain ⟨des, hdes, h⟩ := bind_eq_some_iff.mp h
    obtain ⟨stat, hstat, h⟩ := bind_eq_some_iff.mp h
    cases htype : stat.type <;> rw [htype] at h
    case notFound => exact .inl (some.inj h).symm
    all_goals
      refine .inr ⟨_, .rename hsrc hdes hstat (by rw [htype]; exact nofun), ?_⟩
      rw [FatCall.step, htype]
      exact h

end Calls

/-! ## Unique names -/

/-- No directory that can be reached from the root holds two entries in use with the same name. -/
def Vol.UniqueNames (root : ℕ) (v : Vol) : Prop :=
  UniqueIn {c | v.InTree root c} v

/-- The name that a call creates is new in its directory. -/
def FatCall.NewName (g : Geometry) (v : Vol) : FatCall → Prop
  | .create path _ => path.head? = some slash → v.resolve g.root (parentPath path) ≠ 0 →
      v.NewName (v.resolve g.root (parentPath path)) (formatName83 (lastName path))
  | _ => True

section Unique

variable {g : Geometry} {m : Prop} {d d' : Disk} {v v' : Vol} {S S' : Set ℕ} {L L' : Owner → List ℕ}
  {c q x : ℕ} {o : Owner} {path name : List UInt8} {p : ℕ × ℕ} {env : FatEnv}

theorem Tidy.owner_of_inTree (h : Tidy g v S L) (hc : v.InTree g.root c) :
    ∃ o : Owner, o.In S v ∧ c ∈ L o := by
  induction hc with
  | root => exact ⟨.root, trivial, (h.head_mem (o := .root) trivial trivial rfl).2.mem_self⟩
  | next _ hnext ih =>
    obtain ⟨o, ho, hmem⟩ := ih
    exact ⟨o, ho, h.next_mem ho hmem hnext⟩
  | @sub k i hk hi hlive _ hne _ =>
    have ho : (Owner.slot k i).In S v := ⟨h.mem_of_inTree hk, hi, hlive⟩
    exact ⟨.slot k i, ho, (h.linked_slot ho hne).mem_self⟩

theorem Tidy.reaches_of_meets (h : Tidy g v S L) (ho : o.In S v) (hl : Linked v.next q (L o))
    (hc : v.InTree g.root c) (hcx : Reaches v.next c x) (hqx : Reaches v.next q x) :
    Reaches v.next q c := by
  obtain ⟨o', ho', hmem⟩ := h.owner_of_inTree hc
  have hx : x ∈ L o := hl.mem_iff_reaches.mpr hqx
  obtain ⟨a, -, hl'⟩ := h.linked_of_mem ho' hmem
  have hx' : x ∈ L o' := hl'.mem_iff_reaches.mpr ((hl'.mem_iff_reaches.mp hmem).trans hcx)
  by_cases hoo : o' = o
  · subst hoo
    exact hl.mem_iff_reaches.mp hmem
  · exact absurd hx (h.family.disjoint o' o ho' ho hoo x hx')

theorem uniqueNames_of_grown (hr : Rep g m d v) (h : Tidy g v {c | v.InTree g.root c} L)
    (h' : Tidy g v' S' L') (hdir : v.DirPath g.root path)
    (hgrown : Grown {c | v.InTree g.root c} (v.resolve g.root path) name v p S' v')
    (hplace : p.1 ∈ S' → v.resolve g.root path ≠ 0)
    (hnew : v.resolve g.root path ≠ 0 → v.NewName (v.resolve g.root path) name)
    (hu : v.UniqueNames g.root) : v'.UniqueNames g.root := by
  have hall : UniqueIn S' v' := by
    refine hgrown.unique h.closed h'.closed ?_ (fun hp => hnew (hplace hp)) hu
    intro hp c hc x hcx hqx
    obtain ⟨o, ho, hod, hhead⟩ := ((h.parent hr hdir fun _ _ => 0).2).resolve_left (hplace hp)
    exact h.reaches_of_meets ho (h.head_mem ho hod hhead).2 hc hcx hqx
  intro c hc
  exact hall c (h'.mem_of_inTree hc)

theorem create_uniqueNames (hr : Rep g m d v) (h : WellFormed g v)
    (hok : (FatCall.create path isDir).Ok g v) (hnew : (FatCall.create path isDir).NewName g v)
    (hu : v.UniqueNames g.root) {r : ℤ}
      (hrun : fat32Create g.part env d path isDir = some (d', r)) :
    (vol g d').UniqueNames g.root := by
  obtain ⟨L, h⟩ := h
  by_cases hhead : path.head? = some slash
  · obtain ⟨hdir, hroom⟩ := hok hhead
    obtain ⟨v', S', L', p, htidy, hrep, hgrown, hplace, -⟩ :=
      create_grown hr h hhead hdir rfl hroom hrun
    obtain rfl := hrep.vol
    exact uniqueNames_of_grown hr h htidy hdir hgrown hplace (hnew hhead) hu
  · rw [fat32Create, if_pos hhead] at hrun
    cases hrun
    obtain rfl := hr.vol
    exact hu

theorem rename_uniqueNames (hr : Rep g m d v) (h : WellFormed g v) {src des : List UInt8}
    (hok : (FatCall.rename src des isDir).Ok g v) (hu : v.UniqueNames g.root)
    (hrun : fat32Rename g.part env d src des isDir = some d') : (vol g d').UniqueNames g.root := by
  obtain ⟨L, h⟩ := h
  by_cases hheads : des.head? = some slash ∧ src.head? = some slash
  · obtain ⟨k, i, hmov⟩ := hok hheads.1 hheads.2
    obtain ⟨v', S', L', p, htidy, hrep, hgrown, hplace⟩ :=
      rename_grown hr h hheads.1 hheads.2 hmov hrun
    obtain rfl := hrep.vol
    -- renaming requires that no entry has the name, in use or not
    refine uniqueNames_of_grown hr h htidy hmov.desDir hgrown hplace ?_ hu
    rintro hne s ⟨hreach, hi, -⟩
    exact hmov.fresh hne s.1 hreach s.2 hi
  · have hsame : d' = d := by
      rw [fat32Rename] at hrun
      split at hrun
      · exact (some.inj hrun).symm
      · split at hrun
        · exact (some.inj hrun).symm
        · rename_i hdes hsrc
          exact absurd ⟨not_not.mp hdes, not_not.mp hsrc⟩ hheads
    obtain rfl := hr.vol
    rw [hsame]
    exact hu

end Unique

/-! ## Runs -/

section Runs

variable {σ : Type} {vfs : Vfs σ} {device : ℕ} {g : Geometry} {d d' : Disk}

/-- What a call needs of the volume before it: what the driver's function needs, and for a new entry
that its directory has no entry in use with its name. -/
def DirentCall.Ok (vfs : Vfs σ) (device : ℕ) (g : Geometry) (env : DirentEnv) (d : Disk)
    (call : DirentCall) : Prop :=
  ∀ c, call.Drives vfs device g.part env d c → c.Ok g (vol g d) ∧ c.NewName g (vol g d)

theorem DirentCall.step_uniqueNames {env : DirentEnv} {call : DirentCall} (hdisk : OnDisk g d)
    (hwf : WellFormed g (vol g d)) (hu : (vol g d).UniqueNames g.root)
    (hok : call.Ok vfs device g env d)
    (hstep : DirentCall.step vfs device g.part d (env, call) = some d') :
    OnDisk g d' ∧ WellFormed g (vol g d') ∧ (vol g d').UniqueNames g.root := by
  have hr := hdisk.rep
  rcases DirentCall.step_cases hstep with rfl | ⟨c, hdrives, hfat⟩
  · exact ⟨hdisk, hwf, hu⟩
  · obtain ⟨hcall, hname⟩ := hok c hdrives
    obtain ⟨hr', hwf'⟩ := FatCall.step_wellFormed hr hwf hcall hfat
    refine ⟨hr'.onDisk, hwf', ?_⟩
    cases hdrives with
    | mkfile _ =>
      obtain ⟨⟨d1, r⟩, hrun, rfl⟩ := map_eq_some_iff.mp hfat
      exact create_uniqueNames hr hwf hcall hname hu hrun
    | mkdir _ =>
      obtain ⟨⟨d1, r⟩, hrun, rfl⟩ := map_eq_some_iff.mp hfat
      exact create_uniqueNames hr hwf hcall hname hu hrun
    | rename _ _ _ _ => exact rename_uniqueNames hr hwf hcall hu hfat

/-- **Names stay unique** in every sequence of calls that find what they need and give new names. -/
theorem uniqueNames_of_run {calls : List (DirentEnv × DirentCall)} (hdisk : OnDisk g d)
    (hwf : WellFormed g (vol g d)) (hu : (vol g d).UniqueNames g.root)
    (hrun : Run (DirentCall.step vfs device g.part)
      (fun d c => c.2.Ok vfs device g c.1 d) d calls d') :
    WellFormed g (vol g d') ∧ (vol g d').UniqueNames g.root := by
  refine (hrun.invariant (fun d => OnDisk g d ∧ WellFormed g (vol g d) ∧
    (vol g d).UniqueNames g.root) ?_ ⟨hdisk, hwf, hu⟩).2
  rintro d₁ ⟨env, call⟩ d₂ ⟨hdisk₁, hwf₁, hu₁⟩ hok hstep
  exact DirentCall.step_uniqueNames hdisk₁ hwf₁ hu₁ hok hstep

end Runs

/-- The mount table after the start: the partition is mounted at `/`. -/
def rootVfs : Vfs Unit :=
  { onePartition with
    mountGlobal := fun j => if j = 0 then some ⟨[0x61], [slash], 0, 4096⟩ else none }

def zeroEnv : DirentEnv := ⟨⟨5, fun _ _ _ => 0⟩, ⟨5, fun _ _ _ => 0⟩, fun _ => 0⟩

theorem emptyDisk_not_holds {c : ℕ} {s : ℕ × ℕ}
    (hc : (vol smallGeometry emptyDisk).InTree smallGeometry.root c) :
    ¬ (vol smallGeometry emptyDisk).Holds c s := by
  have hempty : ∀ i < slotsPerCluster, ¬ Live ((vol smallGeometry emptyDisk).slot 2 i) := by
    decide
  rintro ⟨hreach, hi, hlive⟩
  rw [emptyDisk_flat.inTree (hc.reaches hreach)] at hlive
  exact hempty s.2 hi hlive

theorem emptyDisk_uniqueNames : (vol smallGeometry emptyDisk).UniqueNames smallGeometry.root :=
  fun _ hc _ _ hs => absurd hs (emptyDisk_not_holds hc)

theorem twoFilesDisk_uniqueNames :
    (vol smallGeometry twoFilesDisk).UniqueNames smallGeometry.root := by
  have hnames : ∀ i < slotsPerCluster, Live ((vol smallGeometry twoFilesDisk).slot 2 i) →
      ∀ i' < slotsPerCluster, Live ((vol smallGeometry twoFilesDisk).slot 2 i') →
        (vol smallGeometry twoFilesDisk).nameAt (2, i) =
          (vol smallGeometry twoFilesDisk).nameAt (2, i') → i = i' := by
    decide +kernel
  rintro c hc ⟨k, i⟩ ⟨k', i'⟩ hs hs' hname
  obtain rfl : k = 2 := twoFilesDisk_flat.inTree (hc.reaches hs.1)
  obtain rfl : k' = 2 := twoFilesDisk_flat.inTree (hc.reaches hs'.1)
  rw [hnames i hs.2.1 hs.2.2 i' hs'.2.1 hs'.2.2 hname]

/-- In a directory with two files the first one is renamed, and another one with its old name is
created. -/
theorem uniqueNames_of_run_rename :
    ∃ d', Run (DirentCall.step rootVfs 4096 smallGeometry.part)
        (fun d c => c.2.Ok rootVfs 4096 smallGeometry c.1 d) twoFilesDisk
        [(zeroEnv, .rename [slash, 0x41] [slash, 0x43]), (zeroEnv, .mkfile [slash, 0x41])] d' ∧
      WellFormed smallGeometry (vol smallGeometry d') ∧
        (vol smallGeometry d').UniqueNames smallGeometry.root := by
  have hdisk : OnDisk smallGeometry twoFilesDisk := smallDisk_onDisk _ _
  have hchildA : childPath rootVfs 4096 [slash, 0x41] 0 = some [slash, 0x41] := by decide +kernel
  have hchildC : childPath rootVfs 4096 [slash, 0x43] 0 = some [slash, 0x43] := by decide +kernel
  obtain ⟨⟨st, hst, htype⟩, d₁, hd₁, ⟨hend, hfree, hnames⟩, d₂, hd₂, -⟩ :
      (∃ st ∈ statDirent rootVfs 4096 smallGeometry.part zeroEnv twoFilesDisk [slash, 0x41],
        st.type = .file) ∧
      ∃ d₁ ∈ DirentCall.step rootVfs 4096 smallGeometry.part twoFilesDisk
        (zeroEnv, .rename [slash, 0x41] [slash, 0x43]),
        ((vol smallGeometry d₁).next 2 = none ∧ (vol smallGeometry d₁).slot 2 0 0 = 0 ∧
          ∀ i < slotsPerCluster, Live ((vol smallGeometry d₁).slot 2 i) →
            (vol smallGeometry d₁).nameAt (2, i) ≠ formatName83 [0x41]) ∧
      ∃ d₂ ∈ DirentCall.step rootVfs 4096 smallGeometry.part d₁ (zeroEnv, .mkfile [slash, 0x41]),
        True := by
    decide +kernel
  have hrename :
      (DirentCall.rename [slash, 0x41] [slash, 0x43]).Ok rootVfs 4096 smallGeometry zeroEnv
      twoFilesDisk := by
    rintro c (- | - | ⟨hsrc, hdes, hstat, -⟩)
    cases hsrc.symm.trans hchildA
    cases hdes.symm.trans hchildC
    cases hstat.symm.trans hst
    rw [decide_eq_false (by rw [htype]; decide)]
    exact ⟨fun _ _ => ⟨2, 0, twoFilesDisk_movable⟩, trivial⟩
  have hcreate : (DirentCall.mkfile [slash, 0x41]).Ok rootVfs 4096 smallGeometry zeroEnv d₁ := by
    rintro c ⟨h⟩
    cases h.symm.trans hchildA
    refine ⟨fun _ => ⟨fun _ => trivial, fun _ => .inl ⟨2, 0, .refl, by decide, .inl hfree⟩⟩, ?_⟩
    rintro - - ⟨k, i⟩ ⟨hreach, hi, hlive⟩
    rcases hreach.cases_head with rfl | ⟨c, hc, -⟩
    · exact hnames i hi hlive
    · cases hend.symm.trans hc
  have hrun : Run (DirentCall.step rootVfs 4096 smallGeometry.part)
      (fun d c => c.2.Ok rootVfs 4096 smallGeometry c.1 d) twoFilesDisk _ d₂ :=
    .snoc (.snoc (.nil _) hrename hd₁) hcreate hd₂
  exact ⟨d₂, hrun,
    uniqueNames_of_run hdisk twoFilesDisk_flat.wellFormed twoFilesDisk_uniqueNames hrun⟩

/-- **A file that is created twice is there twice.** -/
theorem mkfile_twice :
    ∃ d', OnDisk smallGeometry emptyDisk ∧ WellFormed smallGeometry (vol smallGeometry emptyDisk) ∧
      (vol smallGeometry emptyDisk).UniqueNames smallGeometry.root ∧
      Run (DirentCall.step rootVfs 4096 smallGeometry.part) (fun _ _ => True) emptyDisk
        [(zeroEnv, .mkfile [slash, 0x41]), (zeroEnv, .mkfile [slash, 0x41])] d' ∧
      ¬ (vol smallGeometry d').UniqueNames smallGeometry.root := by
  simp only [exists_and_left]
  refine ⟨smallDisk_onDisk _ _, emptyDisk_flat.wellFormed, emptyDisk_uniqueNames,
    Run.exists_of_eval (Q := fun d' => Live ((vol smallGeometry d').slot 2 0) ∧
      Live ((vol smallGeometry d').slot 2 1) ∧
      (vol smallGeometry d').nameAt (2, 0) = (vol smallGeometry d').nameAt (2, 1))
    (by decide +kernel) ?_⟩
  rintro d' - ⟨hlive, hlive', hname⟩ hu
  have heq := hu 2 .root (2, 0) (2, 1) ⟨.refl, by decide, hlive⟩ ⟨.refl, by decide, hlive'⟩ hname
  cases heq

end CarrotOS.Fat32
