import CarrotOS.Fs.Move
import CarrotOS.Lib.Run

/-!
# No cluster is shared or freed while in use

A sequence of calls, each of which finds what it needs, leads from a well-formed volume to volumes
in which no cluster belongs to two entries and no cluster in use is free.

The entries of a volume are the slots in use of all clusters of all directories that can be reached
from the root. A slot behind an unused one counts as well: on a formatted volume there is none, and
one that a call hides by an erased entry before it comes back when that slot is filled again.
-/

namespace CarrotOS.Fat32

open Bytes LinkTable Transition Option Owner

variable {c root : ℕ} {o : Owner}

/-! ## The tree of directories -/

/-- The clusters of the directories that can be reached from the root. -/
inductive Vol.InTree (root : ℕ) (v : Vol) : ℕ → Prop
  | root : InTree root v root
  | next {c c' : ℕ} : InTree root v c → v.next c = some c' → InTree root v c'
  | sub {k i : ℕ} : InTree root v k → i < slotsPerCluster → Live (v.slot k i) →
    IsDir (v.slot k i) → getEntryCluster (v.slot k i) ≠ 0 →
    InTree root v (getEntryCluster (v.slot k i))

def Vol.Entry (root : ℕ) (v : Vol) (k i : ℕ) : Prop :=
  v.InTree root k ∧ i < slotsPerCluster ∧ Live (v.slot k i)

def Vol.InChain (v : Vol) (k i c : ℕ) : Prop :=
  getEntryCluster (v.slot k i) ≠ 0 ∧ Reaches v.next (getEntryCluster (v.slot k i)) c

/-- The chains of the root directory and of all entries end and have no cluster in common, and so
does that of the first entry of the FAT, if it leads anywhere. -/
def WellFormed (g : Geometry) (v : Vol) : Prop :=
  ∃ L, Tidy g v {c | v.InTree g.root c} L

/-- No cluster is in the chains of two entries, and every cluster that is reached from an entry or
from the root directory is in use. -/
structure Sound (g : Geometry) (v : Vol) : Prop where
  disjoint : ∀ k i k' i', v.Entry g.root k i → v.Entry g.root k' i' → (k, i) ≠ (k', i') →
    ∀ c, v.InChain k i c → ¬ v.InChain k' i' c
  used : ∀ k i, v.Entry g.root k i → ∀ c, v.InChain k i c → v.fat c ≠ 0
  root_used : ∀ c, Reaches v.next g.root c → v.fat c ≠ 0

section Tree

variable {g : Geometry} {v : Vol} {S : Set ℕ} {L : Owner → List ℕ}

theorem Vol.InTree.reaches {c' : ℕ} (h : v.InTree root c) (hreach : Reaches v.next c c') :
    v.InTree root c' := by
  induction hreach with
  | refl => exact h
  | tail _ hnext ih => exact .next ih hnext

theorem Tidy.mem_of_inTree (h : Tidy g v S L) (hc : v.InTree g.root c) : c ∈ S := by
  induction hc with
  | root => exact h.root_mem
  | next _ hnext ih => exact (h.closed _ ih).2 _ hnext
  | sub _ hi hlive hdir hne ih => exact h.cluster_mem ⟨ih, hi, hlive⟩ hdir hne

/-- **A tidy volume is well-formed.** Directories that have been removed are left out. -/
theorem Tidy.restrict (h : Tidy g v S L) : Tidy g v {c | v.InTree g.root c} L := by
  have hin : ∀ o : Owner, o.In {c | v.InTree g.root c} v → o.In S v := by
    intro o ho
    cases o with
    | root => trivial
    | lost => trivial
    | slot k i => exact ⟨h.mem_of_inTree ho.1, ho.2⟩
  -- the chain of a directory in the tree is in the tree
  have hhead : ∀ o : Owner, o.In {c | v.InTree g.root c} v → o.Dir v →
      ∀ a, o.head g.root v = some a → v.InTree g.root a := by
    intro o ho hdir a ha
    cases o with
    | root =>
      cases ha
      exact .root
    | lost => exact hdir.elim
    | slot k i =>
      rw [head, start] at ha
      split at ha
      · cases ha
      · rename_i hne
        cases ha
        exact .sub ho.1 ho.2.1 ho.2.2 hdir hne
  constructor
  · exact h.family.mono (fun o ho => ⟨hin o ho, rfl⟩) fun _ _ _ _ => rfl
  · intro o ho
    exact h.range o (hin o ho)
  · intro o ho hdir c hc
    obtain ⟨a, ha, hlink⟩ := h.linked_of_mem (hin o ho) hc
    exact (hhead o ho hdir a ha).reaches (hlink.mem_iff_reaches.mp hc)
  · intro o ho hdir c hc htree
    exact h.files o (hin o ho) hdir c hc (h.mem_of_inTree htree)
  · intro c hc
    exact ⟨(h.closed c (h.mem_of_inTree hc)).1, fun c' hc' => .next hc hc'⟩
  · intro k i ho
    exact h.dots k i (hin _ ho)

theorem Tidy.wellFormed (h : Tidy g v S L) : WellFormed g v := ⟨L, h.restrict⟩

/-- **Well-formed volumes are sound.** -/
theorem WellFormed.sound (h : WellFormed g v) : Sound g v := by
  obtain ⟨L, h⟩ := h
  have hmem : ∀ {k i c}, v.Entry g.root k i → v.InChain k i c → c ∈ L (.slot k i) := by
    intro k i c he hc
    exact (h.linked_slot he hc.1).mem_iff_reaches.mpr hc.2
  constructor
  · intro k i k' i' he he' hne c hc hc'
    refine h.family.disjoint (.slot k i) (.slot k' i') he he' ?_ c (hmem he hc) (hmem he' hc')
    intro heq
    obtain ⟨rfl, rfl⟩ := slot.inj heq
    exact hne rfl
  · intro k i he c hc
    exact h.fat_ne_zero (o := .slot k i) he (hmem he hc)
  · intro c hc
    exact h.fat_ne_zero_of_mem (h.closed.reaches h.root_mem hc)

end Tree

/-! ## Runs -/

/-- What a call needs of the volume before it. Relative paths are refused.

* The parent of the path is looked up in directories only, in every call.
* `fat32_create`: the parent has a free slot, or some cluster is free, or the parent does not exist.
* `fat32_write_file_bytes`: the path leads to a file, if anywhere.
* `fat32_truncate_file`: the chain that is found is that of the entry with the attribute 0x20 that
  is changed afterwards.
* `fat32_rename`: the source exists, is found by each of the lookups and has the attribute that
  belongs to `is_dir`, and the destination does not exist and has room. -/
def FatCall.Ok (g : Geometry) (v : Vol) : FatCall → Prop
  | .create path _ => path.head? = some slash → v.DirPath g.root (parentPath path) ∧
      (v.resolve g.root (parentPath path) ≠ 0 →
        v.HasRoom g.clusters (v.resolve g.root (parentPath path)))
  | .write path _ _ _ => path.head? = some slash → v.DirPath g.root (parentPath path) ∧
      tokens path ≠ [] ∧ v.Leads (fun e => ¬ IsDir e) (tokens path) g.root
  | .truncate path => path.head? = some slash → path ≠ [slash] →
      v.DirPath g.root (parentPath path) ∧ v.Leads (fun _ => True) (tokens path) g.root ∧
        (v.resolve g.root path ≠ 0 → v.Owns g.root path)
  | .rename src des isDir => des.head? = some slash → src.head? = some slash →
      ∃ k i, v.Movable g.clusters g.root src des isDir k i
  | .rmdirEntry path => path.head? = some slash → v.DirPath g.root (parentPath path)

/-- The call changes entries of the FAT by `fat32_set_fat_entry` only. -/
def FatCall.KeepsMirrors (g : Geometry) (v : Vol) : FatCall → Prop
  | .create path _ => path.head? ≠ some slash
  | .rename src des _ => des.head? = some slash → src.head? = some slash →
      v.FreeSlotIn (v.resolve g.root (parentPath des))
  | _ => True

section Runs

variable {g : Geometry} {m : Prop} {d d' : Disk} {v : Vol} {S : Set ℕ} {L : Owner → List ℕ}
  {env : FatEnv} {call : FatCall}

/-- **One call keeps the volume tidy.** -/
theorem FatCall.step_tidy (hr : Rep g m d v) (h : Tidy g v S L) (hok : call.Ok g v)
    (hstep : FatCall.step g.part d (env, call) = some d') :
    ∃ v' S' L', Tidy g v' S' L' ∧ Rep g (m ∧ call.KeepsMirrors g v) d' v' := by
  cases call with
  | create path isDir =>
    obtain ⟨⟨d1, r⟩, hrun, rfl⟩ := map_eq_some_iff.mp hstep
    exact create_tidy hr h hok hrun
  | write path buf offset size =>
    obtain ⟨⟨d1, r⟩, hrun, rfl⟩ := map_eq_some_iff.mp hstep
    obtain ⟨v', L', hr', h'⟩ := write_tidy hr h hok hrun
    exact ⟨v', S, L', h', hr'.mono And.left⟩
  | truncate path =>
    obtain ⟨⟨d1, r⟩, hrun, rfl⟩ := map_eq_some_iff.mp hstep
    obtain ⟨v', L', hr', h'⟩ := truncate_tidy hr h hok hrun
    exact ⟨v', S, L', h', hr'.mono And.left⟩
  | rename src des isDir => exact rename_tidy hr h hok hstep
  | rmdirEntry path =>
    obtain ⟨⟨d1, r⟩, hrun, rfl⟩ := map_eq_some_iff.mp hstep
    obtain ⟨v', L', hr', h'⟩ := removeEntry_tidy hr h hok hrun
    exact ⟨v', S, L', h', hr'.mono And.left⟩

theorem FatCall.step_wellFormed (hr : Rep g m d v) (h : WellFormed g v) (hok : call.Ok g v)
    (hstep : FatCall.step g.part d (env, call) = some d') :
    Rep g (m ∧ call.KeepsMirrors g v) d' (vol g d') ∧ WellFormed g (vol g d') := by
  obtain ⟨L, htidy⟩ := h
  obtain ⟨v', S', L', htidy', hr'⟩ := FatCall.step_tidy hr htidy hok hstep
  obtain rfl := hr'.vol
  exact ⟨hr', htidy'.wellFormed⟩

/-- **No cluster is shared, and none in use is freed**, by any sequence of calls that find what they
need. -/
theorem sound_of_run {calls : List (FatEnv × FatCall)} (hdisk : OnDisk g d)
    (hwf : WellFormed g (vol g d))
    (hrun : Run (FatCall.step g.part) (fun d c => c.2.Ok g (vol g d)) d calls d') :
    OnDisk g d' ∧ Sound g (vol g d') := by
  have hinv : OnDisk g d' ∧ WellFormed g (vol g d') := by
    refine hrun.invariant (fun d => OnDisk g d ∧ WellFormed g (vol g d)) ?_ ⟨hdisk, hwf⟩
    rintro d₁ ⟨env, call⟩ d₂ ⟨hdisk₁, hwf₁⟩ hok hstep
    have hr : Rep g False d₁ (vol g d₁) := ⟨hdisk₁, rfl, False.elim⟩
    obtain ⟨hr', hwf'⟩ := FatCall.step_wellFormed hr hwf₁ hok hstep
    exact ⟨hr'.onDisk, hwf'⟩
  exact ⟨hinv.1, hinv.2.sound⟩

end Runs

/-! ## Volumes without subdirectories -/

section Flat

variable {g : Geometry} {v : Vol}

/-- The root directory has one cluster, and its entries are files of at most one cluster each. -/
@[mk_iff] structure Flat (g : Geometry) (v : Vol) : Prop where
  root : v.next g.root = none
  lost : v.follow 0 = 0
  file : ∀ i < slotsPerCluster, Live (v.slot g.root i) → ¬ IsDir (v.slot g.root i)
  chain : ∀ i < slotsPerCluster, Live (v.slot g.root i) → getEntryCluster (v.slot g.root i) ≠ 0 →
    (2 ≤ getEntryCluster (v.slot g.root i) ∧ getEntryCluster (v.slot g.root i) < g.clusters) ∧
      getEntryCluster (v.slot g.root i) ≠ g.root ∧ v.next (getEntryCluster (v.slot g.root i)) = none
  distinct : ∀ i < slotsPerCluster, Live (v.slot g.root i) ∧ getEntryCluster (v.slot g.root i) ≠ 0 →
    ∀ j < slotsPerCluster, Live (v.slot g.root j) ∧
      getEntryCluster (v.slot g.root j) = getEntryCluster (v.slot g.root i) → i = j

set_option synthInstance.maxSize 400 in
instance : Decidable (Flat g v) :=
  decidable_of_iff _ (flat_iff g v).symm

def Owner.single (root : ℕ) (v : Vol) (o : Owner) : List ℕ :=
  (o.head root v).toList

theorem Flat.inTree (h : Flat g v) (hc : v.InTree g.root c) : c = g.root := by
  induction hc with
  | root => rfl
  | next _ hnext ih =>
    rw [ih, h.root] at hnext
    cases hnext
  | sub _ hi hlive hdir _ ih =>
    subst ih
    exact absurd hdir (h.file _ hi hlive)

theorem Owner.mem_single : c ∈ o.single root v ↔ o.head root v = some c := by
  rw [single, mem_toList]

theorem Flat.of_head (h : Flat g v) (ho : o.In {c | v.InTree g.root c} v)
    (hc : o.head g.root v = some c) : (2 ≤ c ∧ c < g.clusters) ∧ v.next c = none ∧
      (o = .root ∨ c ≠ g.root ∧ ¬ o.Dir v) := by
  cases o with
  | root =>
    cases hc
    exact ⟨⟨g.root_ge, g.root_lt⟩, h.root, .inl rfl⟩
  | lost =>
    rw [head, h.lost] at hc
    cases hc
  | slot k i =>
    obtain rfl := h.inTree ho.1
    rw [head, start] at hc
    split at hc
    · cases hc
    · rename_i hne
      cases hc
      obtain ⟨hrange, hroot, hnext⟩ := h.chain i ho.2.1 ho.2.2 hne
      exact ⟨hrange, hnext, .inr ⟨hroot, h.file i ho.2.1 ho.2.2⟩⟩

theorem Flat.head_ne (h : Flat g v) {o' : Owner} (ho : o.In {c | v.InTree g.root c} v)
    (ho' : o'.In {c | v.InTree g.root c} v) (hne : o ≠ o') (hc : o.head g.root v = some c) :
    o'.head g.root v ≠ some c := by
  intro hc'
  rcases (h.of_head ho hc).2.2 with rfl | ⟨hroot, -⟩
  · rcases (h.of_head ho' hc').2.2 with rfl | ⟨hroot', -⟩
    · exact hne rfl
    · exact hroot' (some.inj hc).symm
  · cases o with
    | root => exact hroot (some.inj hc).symm
    | lost =>
      rw [head, h.lost] at hc
      cases hc
    | slot k i =>
      rcases (h.of_head ho' hc').2.2 with rfl | ⟨hroot', -⟩
      · exact hroot (some.inj hc').symm
      · cases o' with
        | root => exact hroot' (some.inj hc').symm
        | lost =>
          rw [head, h.lost] at hc'
          cases hc'
        | slot k' i' =>
          obtain rfl := h.inTree ho.1
          obtain rfl := h.inTree ho'.1
          rw [head, start] at hc hc'
          split at hc
          · cases hc
          · split at hc'
            · cases hc'
            · rename_i hzero _
              have heq := (some.inj hc').trans (some.inj hc).symm
              obtain rfl := h.distinct i ho.2.1 ⟨ho.2.2, hzero⟩ i' ho'.2.1 ⟨ho'.2.2, heq⟩
              exact hne rfl

/-- **Flat volumes are well-formed.** -/
theorem Flat.wellFormed (h : Flat g v) : WellFormed g v := by
  refine ⟨single g.root v, ⟨⟨?_, ?_⟩, ?_, ?_, ?_, ?_, ?_⟩⟩
  · intro o ho
    rw [single]
    cases hhead : o.head g.root v with
    | none => exact .nil
    | some c => exact .linked (.last (h.of_head ho hhead).2.1)
  · intro o o' ho ho' hne c hc hc'
    rw [mem_single] at hc hc'
    exact h.head_ne ho ho' hne hc hc'
  · intro o ho c hc
    exact (h.of_head ho (mem_single.mp hc)).1
  · intro o ho hdir c hc
    have hhead := mem_single.mp hc
    rcases (h.of_head ho hhead).2.2 with rfl | ⟨-, hfile⟩
    · cases hhead
      exact .root
    · exact absurd hdir hfile
  · intro o ho hdir c hc htree
    have hhead := mem_single.mp hc
    rcases (h.of_head ho hhead).2.2 with rfl | ⟨hroot, -⟩
    · exact hdir trivial
    · exact hroot (h.inTree htree)
  · intro c hc
    obtain rfl := h.inTree hc
    refine ⟨⟨g.root_ge, g.root_lt⟩, ?_⟩
    intro c' hc'
    cases h.root.symm.trans hc'
  · intro k i ho hdir
    obtain rfl := h.inTree ho.1
    exact absurd hdir (h.file i ho.2.1 ho.2.2)

end Flat

/-! ## A small volume -/

/-- A layout with two copies of a FAT of one sector. -/
def smallGeometry : Geometry where
  part := 0
  lba := 1
  reserved := 1
  numFats := 2
  fatSize := 1
  root := 2
  part_lt := by decide
  lba_pos := by decide
  reserved_pos := by decide
  numFats_pos := by decide
  fatSize_lt := by decide
  root_ge := by decide
  root_lt := by decide
  fits := by decide

/-- A disk with this layout, the given entries of the FAT and the given root directory. -/
def smallDisk (fat : List ℕ) (root : List Buf) : Disk := fun p =>
  if p < 512 then ([(454, 1), (510, 0x55), (511, 0xAA)].lookup p).getD 0
  else if p < 1024 then
    ([(12, 2), (13, 8), (14, 1), (16, 2), (32, 0xF3), (33, 3), (36, 1), (44, 2)].lookup
      (p - 512)).getD 0
  else if p < 2048 then leByte (fat.getD (p % 512 / 4) 0) (p % 4)
  else root.getD ((p - 2048) / 32) (fun _ => 0) (p % 32)

theorem smallDisk_onDisk (fat : List ℕ) (root : List Buf) :
    OnDisk smallGeometry (smallDisk fat root) := by
  have hempty : OnDisk smallGeometry (smallDisk [] []) := ⟨by decide, by decide⟩
  refine hempty.congr fun j hj => ?_
  -- the first two sectors do not depend on the FAT and the directory
  have hj' : j < 1024 := hj
  rw [smallDisk, smallDisk, if_pos hj', if_pos hj']

def emptyDisk : Disk := smallDisk [0x0FFFFFF8, 0x0FFFFFFF, 0x0FFFFFF8] []

theorem emptyDisk_flat : Flat smallGeometry (vol smallGeometry emptyDisk) := by
  decide

/-- Two files in one cluster each. -/
def twoFilesDisk : Disk :=
  smallDisk [0x0FFFFFF8, 0x0FFFFFFF, 0x0FFFFFF8, 0x0FFFFFF8, 0x0FFFFFF8]
    [newEntry (formatName83 [0x41]) 0x20 3, newEntry (formatName83 [0x42]) 0x20 4]

theorem twoFilesDisk_flat : Flat smallGeometry (vol smallGeometry twoFilesDisk) := by
  decide +kernel

theorem twoFilesDisk_movable :
    (vol smallGeometry twoFilesDisk).Movable smallGeometry.clusters smallGeometry.root [slash, 0x41]
      [slash, 0x43] false 2 0 := by
  obtain ⟨hlive, hname, hentry, hstat, hfree, hfresh⟩ :
      Live ((vol smallGeometry twoFilesDisk).slot 2 0) ∧
      scanName (formatName83 [0x41]) ((vol smallGeometry twoFilesDisk).data 2) = .hit 0 ∧
      scanEntry 0x20 (formatName83 [0x41]) ((vol smallGeometry twoFilesDisk).data 2) = .hit 0 ∧
      (scanStat [0x41] ((vol smallGeometry twoFilesDisk).data 2) = .hit 0 ∧
        (vol smallGeometry twoFilesDisk).slot 2 0 11 ≠ 0x10) ∧
      (vol smallGeometry twoFilesDisk).slot 2 2 0 = 0 ∧
      ∀ i < slotsPerCluster, cells 11 ((vol smallGeometry twoFilesDisk).slot 2 i) ≠
        formatName83 [0x43] := by
    decide +kernel
  refine ⟨fun _ => trivial, fun _ => trivial, by decide, hlive, .here hname,
    .here hentry, by decide,
    ⟨2, 0, .here hstat.1, ?_⟩, fun _ => .inl ⟨2, 2, .refl, by decide, .inl hfree⟩, fun _ k hk => ?_,
    by decide, nofun⟩
  · exact ⟨fun hdir => absurd hdir hstat.2, nofun⟩
  · obtain rfl : k = 2 := twoFilesDisk_flat.inTree (Vol.InTree.root.reaches hk)
    exact hfresh

/-- A file is renamed, and another one with its old name is created, written and removed. -/
theorem sound_of_run_rename :
    ∃ d',
        Run (FatCall.step smallGeometry.part)
        (fun d c => c.2.Ok smallGeometry (vol smallGeometry d))
        twoFilesDisk [(⟨5, fun _ _ _ => 0⟩, .rename [slash, 0x41] [slash, 0x43] false),
          (⟨5, fun _ _ _ => 0⟩, .create [slash, 0x41] false),
          (⟨5, fun _ _ _ => 0⟩, .write [slash, 0x41] (fun _ => 7) 0 2),
          (⟨5, fun _ _ _ => 0⟩, .rmdirEntry [slash, 0x41])] d' ∧
      OnDisk smallGeometry d' ∧ Sound smallGeometry (vol smallGeometry d') := by
  have hdisk : OnDisk smallGeometry twoFilesDisk := smallDisk_onDisk _ _
  obtain ⟨d₁, hd₁, hfree, d₂, hd₂, ⟨hscan, hfile⟩, d₃, hd₃, d₄, hd₄, -⟩ :
      ∃ d₁ ∈ FatCall.step smallGeometry.part twoFilesDisk
        (⟨5, fun _ _ _ => 0⟩, .rename [slash, 0x41] [slash, 0x43] false),
        (vol smallGeometry d₁).slot 2 0 0 = 0 ∧
      ∃ d₂ ∈ FatCall.step smallGeometry.part d₁ (⟨5, fun _ _ _ => 0⟩, .create [slash, 0x41] false),
        (scanToken ((vol smallGeometry d₂).data 2) [0x41] = .hit 0 ∧
          ¬ IsDir ((vol smallGeometry d₂).slot 2 0)) ∧
      ∃ d₃ ∈ FatCall.step smallGeometry.part d₂
        (⟨5, fun _ _ _ => 0⟩, .write [slash, 0x41] (fun _ => 7) 0 2),
      ∃ d₄ ∈ FatCall.step smallGeometry.part d₃ (⟨5, fun _ _ _ => 0⟩, .rmdirEntry [slash, 0x41]),
        True := by
    decide +kernel
  have hrename : (FatCall.rename [slash, 0x41] [slash, 0x43] false).Ok smallGeometry
      (vol smallGeometry twoFilesDisk) := fun _ _ => ⟨2, 0, twoFilesDisk_movable⟩
  have hcreate : (FatCall.create [slash, 0x41] false).Ok smallGeometry (vol smallGeometry d₁) :=
    fun _ => ⟨fun _ => trivial, fun _ => .inl ⟨2, 0, .refl, by decide, .inl hfree⟩⟩
  have hwrite : (FatCall.write [slash, 0x41] (fun _ => 7) 0 2).Ok smallGeometry
      (vol smallGeometry d₂) := by
    refine fun _ => ⟨fun _ => trivial, by decide, fun i hi => ?_⟩
    cases hscan.symm.trans hi
    exact hfile
  have hremove : (FatCall.rmdirEntry [slash, 0x41]).Ok smallGeometry (vol smallGeometry d₃) :=
    fun _ _ => trivial
  have hrun : Run (FatCall.step smallGeometry.part)
      (fun d c => c.2.Ok smallGeometry (vol smallGeometry d)) twoFilesDisk _ d₄ :=
    .snoc (.snoc (.snoc (.snoc (.nil _) hrename hd₁) hcreate hd₂) hwrite hd₃) hremove hd₄
  exact ⟨d₄, hrun, sound_of_run hdisk twoFilesDisk_flat.wellFormed hrun⟩

def readOnlyDisk : Disk :=
  smallDisk [0x0FFFFFF8, 0x0FFFFFFF, 0x0FFFFFF8, 0x0FFFFFF8] [newEntry (formatName83 [0x41]) 0x21 3]

theorem readOnlyDisk_flat : Flat smallGeometry (vol smallGeometry readOnlyDisk) := by
  decide +kernel

/-- **Truncating frees a chain in use**: the entry of a read-only file is not found again and keeps
its first cluster. -/
theorem truncate_frees_used_cluster :
    ∃ d', OnDisk smallGeometry readOnlyDisk ∧
      WellFormed smallGeometry (vol smallGeometry readOnlyDisk) ∧
      Run (FatCall.step smallGeometry.part) (fun _ _ => True) readOnlyDisk
        [(⟨5, fun _ _ _ => 0⟩, .truncate [slash, 0x41])] d' ∧
      ¬ Sound smallGeometry (vol smallGeometry d') := by
  simp only [exists_and_left]
  refine ⟨smallDisk_onDisk _ _, readOnlyDisk_flat.wellFormed, Run.exists_of_eval (Q := fun d' =>
    Live ((vol smallGeometry d').slot 2 0) ∧
    getEntryCluster ((vol smallGeometry d').slot 2 0) = 3 ∧ (vol smallGeometry d').fat 3 = 0)
    (by decide) ?_⟩
  rintro d' - ⟨hlive, hcluster, hfree⟩
  intro hsound
  refine hsound.used 2 0 ⟨.root, by decide, hlive⟩ 3 ⟨?_, ?_⟩ hfree
  · rw [hcluster]
    decide
  · rw [hcluster]
    exact .refl

end CarrotOS.Fat32
