import CarrotOS.Fs.Layout
import CarrotOS.Fs.Update

/-!
# Volumes

What the routines read and write of a disk, when the partition table and the boot sector describe a
volume with sectors of 512 bytes and clusters of eight sectors: the entries of the first FAT and the
contents of the clusters. Each routine that touches the disk is described by what it does to this
volume.
-/

namespace CarrotOS.Fat32

open Word Bytes Function List

/-! ## Layout -/

/-- A layout: the partition and its first sector, the sectors before the FAT, the number of copies
of the FAT, their size in sectors, and the first cluster of the root directory. The sectors of all
clusters that have an entry in the FAT have numbers below `2 ^ 32`. -/
structure Geometry where
  part : ℕ
  lba : ℕ
  reserved : ℕ
  numFats : ℕ
  fatSize : ℕ
  root : ℕ
  part_lt : part < 4
  lba_pos : 0 < lba
  reserved_pos : 0 < reserved
  numFats_pos : 0 < numFats
  fatSize_lt : fatSize < 2 ^ 21
  root_ge : 2 ≤ root
  root_lt : root < 128 * fatSize
  fits : lba + reserved + numFats * fatSize + 8 * (128 * fatSize - 2) ≤ 2 ^ 32

namespace Geometry

variable (g : Geometry)

def clusters : ℕ := 128 * g.fatSize

def fatStart : ℕ := g.lba + g.reserved

def dataStart : ℕ := g.fatStart + g.numFats * g.fatSize

def fatPos (k p : ℕ) : ℕ := 512 * (g.fatStart + k * g.fatSize) + p

def dataPos (c i : ℕ) : ℕ := 512 * (g.dataStart + 8 * (c - 2)) + i

def bpb : Bpb := ⟨512, 8, g.reserved, g.numFats, g.fatSize, g.root⟩

theorem clusters_le : g.clusters ≤ 2 ^ 28 - 128 := by
  have := g.fatSize_lt
  unfold clusters
  omega

theorem dataStart_fits : g.dataStart + 8 * (g.clusters - 2) ≤ 2 ^ 32 := g.fits

/-- The layout, with every entry of the FAT for a cluster. -/
def layout : Layout where
  part := g.part
  lba := g.lba
  sectorsPerCluster := 8
  reserved := g.reserved
  numFats := g.numFats
  fatSize := g.fatSize
  clusters := g.clusters
  part_lt := g.part_lt
  reserved_pos := g.reserved_pos
  numFats_pos := g.numFats_pos
  fits := g.fits

theorem layout_pos : 0 < g.layout.sectorsPerCluster := Nat.zero_lt_succ 7

theorem fatStart_le_dataStart : g.fatStart + g.fatSize ≤ g.dataStart :=
  g.layout.fatStart_le_dataStart

theorem fatPos_lt {k p : ℕ} (hk : k < g.numFats) (hp : p < 512 * g.fatSize) :
    g.fatPos k p < 512 * g.dataStart :=
  g.layout.fatPos_lt hk hp

end Geometry

structure OnDisk (g : Geometry) (d : Disk) : Prop where
  lba : getPartitionLba g.part d = g.lba
  bpb : getBpb g.part d = g.bpb

namespace OnDisk

variable {g : Geometry} {d : Disk} (h : OnDisk g d)
include h

theorem bytesPerSector : (getBpb g.part d).bytesPerSector = 512 := by rw [h.bpb]; rfl

theorem sectorsPerCluster : (getBpb g.part d).sectorsPerCluster = 8 := by rw [h.bpb]; rfl

theorem reservedSectorCount : (getBpb g.part d).reservedSectorCount = g.reserved :=
    by rw [h.bpb]; rfl

theorem numFats : (getBpb g.part d).numFats = g.numFats := by rw [h.bpb]; rfl

theorem fatSize32 : (getBpb g.part d).fatSize32 = g.fatSize := by rw [h.bpb]; rfl

theorem rootCluster : (getBpb g.part d).rootCluster = g.root := by rw [h.bpb]; rfl

theorem onLayout : OnLayout g.layout d :=
  ⟨h.lba, h.bytesPerSector, h.sectorsPerCluster, h.reservedSectorCount, h.numFats, h.fatSize32⟩

theorem congr {d' : Disk} (hd : ∀ j < 512 * g.fatStart, d' j = d j) : OnDisk g d' := by
  obtain ⟨hlba, hbpb⟩ := h.onLayout.getBpb_eq hd
  exact ⟨hlba.trans h.lba, hbpb.trans h.bpb⟩

end OnDisk

def Mirrors (g : Geometry) (d : Disk) : Prop :=
  ∀ k < g.numFats, ∀ p < 512 * g.fatSize, d (g.fatPos k p) = d (g.fatPos 0 p)

/-! ## The volume of a disk -/

/-- A volume: the entries of the FAT and the contents of the clusters. -/
@[ext] structure Vol where
  fat : ℕ → ℕ
  data : ℕ → ℕ → UInt8

/-- The volume of a disk, with zeros outside its clusters. -/
def vol (g : Geometry) (d : Disk) : Vol where
  fat c := if c < g.clusters then mask28 (word 4 d (g.fatPos 0 (4 * c))) else 0
  data c i := if 2 ≤ c ∧ c < g.clusters ∧ i < clusterSize then d (g.dataPos c i) else 0

section VolOfDisk

variable {g : Geometry} (d : Disk) {c i : ℕ}

theorem vol_fat (hc : c < g.clusters) : (vol g d).fat c = mask28 (word 4 d (g.fatPos 0 (4 * c))) :=
  if_pos hc

theorem vol_fat_of_le (hc : g.clusters ≤ c) : (vol g d).fat c = 0 :=
  if_neg (by omega)

theorem vol_data (hc2 : 2 ≤ c) (hc : c < g.clusters) (hi : i < clusterSize) :
    (vol g d).data c i = d (g.dataPos c i) :=
  if_pos ⟨hc2, hc, hi⟩

theorem vol_data_of_not (h : ¬ (2 ≤ c ∧ c < g.clusters ∧ i < clusterSize)) :
    (vol g d).data c i = 0 :=
  if_neg h

end VolOfDisk

namespace Vol

variable (v : Vol)

def setFat (c x : ℕ) : Vol :=
  { v with fat := update v.fat c x }

/-- The cluster that `get_next_cluster` returns. -/
def follow (c : ℕ) : ℕ :=
  if fat32Eoc ≤ v.fat c then 0 else v.fat c

/-- The cluster that `find_blank_cluster` returns, for `n` entries. -/
def blank (n : ℕ) : ℕ :=
  ((range' 2 (n - 2)).find? fun c => v.fat c == 0).getD 0

def setData (c : ℕ) (b : Buf) : Vol :=
  { v with data := update v.data c fun i => if i < clusterSize then b i else 0 }

/-- The volume with the cleared cluster `b` linked behind `z`. -/
def extended (z b : ℕ) : Vol :=
  ((v.setFat z b).setFat b 0x0FFFFFFF).setData b fun _ => 0

@[simp] theorem setData_fat (c : ℕ) (b : Buf) : (v.setData c b).fat = v.fat := rfl

theorem setFat_fat (c x : ℕ) : (v.setFat c x).fat = update v.fat c x := rfl

theorem setData_data_self (c : ℕ) (b : Buf) {i : ℕ} (hi : i < clusterSize) :
    (v.setData c b).data c i = b i := by
  unfold setData
  dsimp only
  rw [update_self, if_pos hi]

theorem setData_data_of_le (c : ℕ) (b : Buf) {i : ℕ} (hi : clusterSize ≤ i) :
    (v.setData c b).data c i = 0 := by
  unfold setData
  dsimp only
  rw [update_self, if_neg (by omega)]

theorem setData_data_of_ne {c c' : ℕ} (h : c' ≠ c) (b : Buf) :
    (v.setData c b).data c' = v.data c' := by
  unfold setData
  dsimp only
  rw [update_of_ne h]

theorem blank_cases (n : ℕ) :
    (v.blank n = 0 ∧ ∀ c, 2 ≤ c → c < n → v.fat c ≠ 0) ∨
      (2 ≤ v.blank n ∧ v.blank n < n ∧ v.fat (v.blank n) = 0) := by
  unfold blank
  rcases hfind : (range' 2 (n - 2)).find? fun c => v.fat c == 0 with - | c
  · left
    refine ⟨rfl, ?_⟩
    intro c hc2 hc hzero
    have hmem : c ∈ range' 2 (n - 2) := mem_range'_1.mpr (by omega)
    exact find?_eq_none.mp hfind c hmem (by simpa using hzero)
  · right
    have hmem := mem_range'_1.mp (mem_of_find?_eq_some hfind)
    have hzero := find?_some hfind
    rw [Option.getD_some]
    exact ⟨hmem.1, by omega, by simpa using hzero⟩

end Vol

/-! ## Reading -/

section Reading

variable {g : Geometry} {d : Disk} {c : ℕ}

theorem readCluster_of_onDisk (h : OnDisk g d) (hc2 : 2 ≤ c) (hc : c < g.clusters) (buf : Buf) :
    (readCluster g.part d c buf).2 = 0 ∧
      ∀ i < clusterSize, (readCluster g.part d c buf).1 i = (vol g d).data c i := by
  have hread : readCluster g.part d c buf =
      (blit buf 0 clusterSize fun j => d (g.dataPos c 0 + j), 0) :=
    h.onLayout.readCluster_eq g.layout_pos le_rfl hc2 hc buf
  rw [hread]
  refine ⟨rfl, ?_⟩
  intro i hi
  dsimp only
  rw [vol_data d hc2 hc hi, blit_of_mem _ _ (Nat.zero_le i) (by omega), Nat.sub_zero]
  rfl

theorem readCluster_of_lt (part : ℕ) (d : Disk) (hc : c < 2) (buf : Buf) :
    readCluster part d c buf = (buf, -1) := by
  rw [readCluster, if_pos hc]

theorem fatSector_of_onDisk (h : OnDisk g d) (hc : c < g.clusters) :
    fatSector g.part d c = g.fatStart + c / 128 :=
  h.onLayout.fatSector_eq hc (by have := g.clusters_le; omega)

theorem fat32GetFatEntry_of_onDisk (h : OnDisk g d) (hc : c < g.clusters) :
    fat32GetFatEntry g.part d c = (vol g d).fat c := by
  rw [vol_fat d hc]
  exact h.onLayout.getFatEntry hc (by have := g.clusters_le; omega)

theorem getNextCluster_of_onDisk (h : OnDisk g d) (hc : c < g.clusters) :
    getNextCluster g.part d c = (vol g d).follow c := by
  rw [getNextCluster, fat32GetFatEntry_of_onDisk h hc, Vol.follow]

theorem findBlankCluster_of_onDisk (h : OnDisk g d) :
    findBlankCluster g.part d = (vol g d).blank g.clusters := by
  have hcount : u32 g.layout.entries = g.clusters := u32_of_lt (by
    have := g.clusters_le
    change g.clusters < 2 ^ 32
    omega)
  refine h.onLayout.findBlankCluster_eq.trans ?_
  rw [hcount]
  refine congrArg (Option.getD · 0) (find?_congr fun c hc => ?_)
  have hmem := mem_range'_1.mp hc
  rw [vol_fat d (by omega)]
  rfl

end Reading

/-! ## Writing -/

section Writing

variable {g : Geometry} {d d' : Disk} {c : ℕ} {buf buf' : Buf}

/-! ### What a disk holds -/

/-- The disk holds the volume, and if `m` then all copies of the FAT are equal. -/
structure Rep (g : Geometry) (m : Prop) (d : Disk) (v : Vol) : Prop where
  onDisk : OnDisk g d
  vol : vol g d = v
  mirrors : m → Mirrors g d

theorem OnDisk.rep (h : OnDisk g d) : Rep g False d (vol g d) :=
  ⟨h, rfl, False.elim⟩

theorem Rep.mono {m m' : Prop} {v : Vol} (h : Rep g m d v) (hm : m' → m) : Rep g m' d v :=
  ⟨h.onDisk, h.vol, fun hm' => h.mirrors (hm hm')⟩

theorem vol_of_entry {x : ℕ} (hc : c < g.clusters)
    (hfat : ∀ p < 512 * g.fatSize,
      d' (g.fatPos 0 p) = blit d (g.fatPos 0 (4 * c)) 4 (leByte x) (g.fatPos 0 p))
    (hdata : ∀ j, 512 * g.dataStart ≤ j → d' j = d j) :
    vol g d' = (vol g d).setFat c (mask28 x) := by
  have hword : ∀ c' < g.clusters, (vol g d').fat c' =
      if c' = c then mask28 x else (vol g d).fat c' := by
    intro c' hc'
    rw [vol_fat d' hc', vol_fat d hc']
    refine (congrArg mask28 (g.layout.entry_of_blit hfat hc')).trans ?_
    rw [apply_ite mask28, mask28, mask28, Nat.mod_mod_of_dvd _ (by norm_num)]
    rfl
  refine Vol.ext ?_ ?_
  · funext c'
    rw [Vol.setFat_fat, update_apply]
    by_cases hc' : c' < g.clusters
    · exact hword c' hc'
    · have hne : c' ≠ c := fun heq => hc' (heq ▸ hc)
      rw [if_neg hne, vol_fat_of_le d' (by omega), vol_fat_of_le d (by omega)]
  · funext c' i
    refine if_congr Iff.rfl (hdata _ ?_) rfl
    unfold Geometry.dataPos
    omega

/-- The disk changes in one cluster. -/
theorem vol_of_cluster (hc2 : 2 ≤ c) (hc : c < g.clusters)
    (hd : ∀ j, d' j = blit d (g.dataPos c 0) clusterSize buf j) :
    vol g d' = (vol g d).setData c buf := by
  have hstart := g.fatStart_le_dataStart
  refine Vol.ext ?_ ?_
  · funext c'
    rw [Vol.setData_fat]
    by_cases hc' : c' < g.clusters
    · rw [vol_fat d' hc', vol_fat d hc']
      congr 1
      refine leNat_congr fun i hi => ?_
      rw [hd, blit_of_not_mem]
      unfold Geometry.clusters at hc'
      unfold Geometry.fatPos Geometry.dataPos
      omega
    · rw [vol_fat_of_le d' (by omega), vol_fat_of_le d (by omega)]
  · funext c' i
    by_cases hin : 2 ≤ c' ∧ c' < g.clusters ∧ i < clusterSize
    · obtain ⟨hc2', hc', hi⟩ := hin
      rw [vol_data d' hc2' hc' hi, hd]
      by_cases hcc : c' = c
      · subst hcc
        rw [Vol.setData_data_self _ _ _ hi, blit_of_mem] <;> unfold Geometry.dataPos
        · congr 1
          omega
        · omega
        · omega
      · rw [Vol.setData_data_of_ne _ hcc, vol_data d hc2' hc' hi, blit_of_not_mem]
        unfold Geometry.dataPos
        unfold clusterSize at hi ⊢
        omega
    · rw [vol_data_of_not d' hin]
      by_cases hcc : c' = c
      · subst hcc
        rw [Vol.setData_data_of_le _ _ _ (by omega)]
      · rw [Vol.setData_data_of_ne _ hcc, vol_data_of_not d hin]

namespace Rep

variable {m : Prop} {v : Vol} {last b x : ℕ}

theorem readCluster_eq (h : Rep g m d v) (hc2 : 2 ≤ c) (hc : c < g.clusters) (buf : Buf) :
    (readCluster g.part d c buf).2 = 0 ∧
      ∀ i < clusterSize, (readCluster g.part d c buf).1 i = v.data c i :=
  h.vol ▸ readCluster_of_onDisk h.onDisk hc2 hc buf

theorem getFatEntry_eq (h : Rep g m d v) (hc : c < g.clusters) :
    fat32GetFatEntry g.part d c = v.fat c :=
  h.vol ▸ fat32GetFatEntry_of_onDisk h.onDisk hc

theorem getNextCluster_eq (h : Rep g m d v) (hc : c < g.clusters) :
    getNextCluster g.part d c = v.follow c :=
  h.vol ▸ getNextCluster_of_onDisk h.onDisk hc

theorem findBlankCluster_eq (h : Rep g m d v) : findBlankCluster g.part d = v.blank g.clusters :=
  h.vol ▸ findBlankCluster_of_onDisk h.onDisk

theorem writeCluster_rep (h : Rep g m d v) (hc2 : 2 ≤ c) (hc : c < g.clusters) (buf : Buf) :
    (writeCluster g.part d c buf).2 = 0 ∧
      Rep g m (writeCluster g.part d c buf).1 (v.setData c buf) := by
  have hstart := g.fatStart_le_dataStart
  have hwrite : writeCluster g.part d c buf = (blit d (g.dataPos c 0) clusterSize buf, 0) :=
    h.onDisk.onLayout.writeCluster_eq g.layout_pos hc2 hc
      (g.layout.firstSector_add_le hc2 hc) buf
  -- the cluster stands behind the FAT
  have hbefore : ∀ j < 512 * g.dataStart, blit d (g.dataPos c 0) clusterSize buf j = d j := by
    intro j hj
    exact blit_of_not_mem _ _ (.inl (by unfold Geometry.dataPos; omega))
  rw [hwrite]
  refine ⟨rfl, h.onDisk.congr fun j hj => hbefore j (by omega), ?_, ?_⟩
  · rw [vol_of_cluster hc2 hc fun j => rfl, h.vol]
  · intro hm k hk p hp
    dsimp only
    rw [hbefore _ (g.fatPos_lt hk hp), hbefore _ (g.fatPos_lt g.numFats_pos hp)]
    exact h.mirrors hm k hk p hp

theorem writeCluster_of_lt (d : Disk) (part : ℕ) (hc : c < 2) (buf : Buf) :
    writeCluster part d c buf = (d, -1) := by
  rw [writeCluster, if_pos hc]

section Entry

variable (h : Rep g m d v) (hc : c < g.clusters) (x : ℕ)
include h hc

theorem setEntry_rep (buf' : Buf)
    (hm : m → buf' = blit (sector d (g.fatStart + c / 128)) (4 * (c % 128)) 4 (leByte x)) :
    Rep g m (writeMirrors (writeSector d (g.fatStart + c / 128)
        (blit (sector d (g.fatStart + c / 128)) (4 * (c % 128)) 4 (leByte x)))
      (g.fatStart + c / 128) g.numFats g.fatSize buf') (v.setFat c (mask28 x)) := by
  have hq : c / 128 < g.fatSize := by
    unfold Geometry.clusters at hc
    omega
  have houtside : ∀ j, j < 512 * g.fatStart ∨ 512 * g.dataStart ≤ j →
      writeMirrors (writeSector d (g.fatStart + c / 128)
        (blit (sector d (g.fatStart + c / 128)) (4 * (c % 128)) 4 (leByte x)))
          (g.fatStart + c / 128) g.numFats g.fatSize buf' j = d j :=
    fun j hj => g.layout.writeMirrors_outside hq hj
  refine ⟨h.onDisk.congr fun j hj => houtside j (.inl hj), ?_, ?_⟩
  · rw [← h.vol]
    exact vol_of_entry hc (fun p hp => g.layout.writeEntry_fatPos hc x hp)
      fun j hj => houtside j (.inr hj)
  · intro hmirror
    have hcopies : g.layout.SameCopies d := h.mirrors hmirror
    rw [← hm hmirror]
    exact hcopies.writeMirrors hq buf'

theorem fat32SetFatEntry_rep :
    Rep g m (fat32SetFatEntry g.part d c x) (v.setFat c (mask28 x)) := by
  have hset := h.setEntry_rep hc (mask28 x) _ fun _ => rfl
  rw [show mask28 (mask28 x) = mask28 x by unfold mask28; omega] at hset
  have heq := h.onDisk.onLayout.setFatEntry_eq hc (by have := g.clusters_le; omega) x
  exact heq.symm ▸ hset

theorem fatSetEntry_rep :
    Rep g False (fatSetEntry g.part d c x) (v.setFat c (mask28 x)) := by
  have hle := g.clusters_le
  have hset := (h.mono False.elim).setEntry_rep hc (mask28 x) (sector d g.lba) False.elim
  rw [show mask28 (mask28 x) = mask28 x by unfold mask28; omega] at hset
  have hbpb : readBpb (sector d (getPartitionLba g.part d)) = getBpb g.part d := rfl
  have hsector := fatSector_of_onDisk h.onDisk hc
  rw [fatSector, h.onDisk.bytesPerSector, u32_of_lt (x := c * 4) (by omega)] at hsector
  rw [fatSetEntry, hbpb]
  have hnested : u32 (u32 (getPartitionLba g.part d + (getBpb g.part d).reservedSectorCount) +
      u32 (c * 4) / sectorSize) = g.fatStart + c / 128 := by
    rw [← hsector, u32_of_lt (x := c * 4) (by omega), sectorSize]
    unfold u32
    omega
  rw [hnested, h.onDisk.numFats, h.onDisk.fatSize32, h.onDisk.lba, u32_of_lt (by omega), sectorSize,
    show c * 4 % 512 = 4 * (c % 128) by omega]
  exact hset

theorem setFirstFat_rep :
    Rep g False (setFirstFat g.fatStart 128 d c x) (v.setFat c (mask28 x)) := by
  have hq : c / 128 < g.fatSize := by
    unfold Geometry.clusters at hc
    omega
  have hstart := g.fatStart_le_dataStart
  have hdata := g.dataStart_fits
  have hentry : setFirstFat g.fatStart 128 d c x = blit d (g.fatPos 0 (4 * c)) 4 (leByte x) := by
    rw [setFirstFat, u32_of_lt (by omega), writeSector_entry _ _ (by unfold sectorSize; omega)]
    congr 1
    unfold sectorSize Geometry.fatPos
    omega
  rw [hentry]
  refine ⟨h.onDisk.congr fun j hj => blit_of_not_mem _ _ ?_, ?_, False.elim⟩
  · unfold Geometry.fatPos
    omega
  · rw [← h.vol]
    refine vol_of_entry hc (fun p _ => rfl) fun j hj => blit_of_not_mem _ _ ?_
    unfold Geometry.fatPos
    omega

end Entry

theorem extendDirentCluster_links (h : Rep g m d v) (hlast : last < g.clusters)
    (hb : b < g.clusters) :
    Rep g False
        (setFirstFat (u32 (getPartitionLba g.part d + (getBpb g.part d).reservedSectorCount))
        ((getBpb g.part d).bytesPerSector / 4)
        (setFirstFat (u32 (getPartitionLba g.part d + (getBpb g.part d).reservedSectorCount))
          ((getBpb g.part d).bytesPerSector / 4) d last (mask28 b)) b 0x0FFFFFFF)
      ((v.setFat last b).setFat b 0x0FFFFFFF) := by
  have hle := g.clusters_le
  have hstart := g.fatStart_le_dataStart
  have hdata := g.dataStart_fits
  have hroot := g.root_lt
  have hend := (h.setFirstFat_rep hlast (mask28 b)).setFirstFat_rep hb 0x0FFFFFFF
  have hmask : mask28 (mask28 b) = b := by
    unfold mask28
    omega
  rw [hmask, show mask28 0x0FFFFFFF = 0x0FFFFFFF by decide] at hend
  have hfat : u32 (g.lba + g.reserved) = g.fatStart := by
    unfold Geometry.fatStart at *
    exact u32_of_lt (by omega)
  rw [h.onDisk.lba, h.onDisk.reservedSectorCount, h.onDisk.bytesPerSector, hfat]
  exact hend

theorem extendDirentCluster_zero (h : Rep g m d v) (hlast : last < g.clusters) :
    Rep g False (extendDirentCluster g.part d last 0) ((v.setFat last 0).setFat 0 0x0FFFFFFF) := by
  have hroot := g.root_lt
  have hend := h.extendDirentCluster_links hlast (b := 0) (by unfold Geometry.clusters; omega)
  exact hend

theorem extendDirentCluster_rep (h : Rep g m d v) (hlast : last < g.clusters) (hb2 : 2 ≤ b)
    (hb : b < g.clusters) :
    Rep g False (extendDirentCluster g.part d last b) (v.extended last b) := by
  have hend := h.extendDirentCluster_links hlast hb
  exact (hend.writeCluster_rep hb2 hb fun _ => 0).2

end Rep

end Writing

end CarrotOS.Fat32
