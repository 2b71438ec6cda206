import CarrotOS.Fs.Disk
import Mathlib.Data.List.Basic
import Mathlib.Data.List.Find

/-!
# Layouts

Where the driver looks for the FAT and for the clusters of a partition with sectors of 512 bytes.
The number of sectors of a cluster is arbitrary here: the routines for the FAT do not use it, while
`read_cluster` and `write_cluster` make different use of it.
-/

namespace CarrotOS.Fat32

open Word Bytes List

variable {c c' fatSize i j k numFats p s : ℕ} {buf : Buf}

/-! ## Ranges of sectors -/

section Sectors

variable {d : Disk}

theorem foldl_writeSector (d : Disk) (first n : ℕ) (buf : Buf) :
    (range n).foldl (fun d i => writeSector d (first + i) fun j => buf (i * sectorSize + j)) d =
      blit d (sectorSize * first) (sectorSize * n) buf := by
  induction n with
  | zero =>
    funext j
    rw [blit_of_not_mem _ _ (by omega)]
    rfl
  | succ n ih =>
    rw [range_succ, foldl_append, ih, foldl_cons, foldl_nil, writeSector,
      Nat.mul_add, Nat.mul_succ, ← blit_append d (sectorSize * first) (sectorSize * n)]
    congr 1
    funext j
    rw [Nat.mul_comm n]

theorem foldl_writeSector_mem (d : Disk) {first n : ℕ} (buf : Buf) (hn : n ≤ 2 ^ 32) (hi : i < n)
    (hk : k < sectorSize) :
    (range n).foldl (fun d i => writeSector d (u32 (first + i)) fun j => buf (i * sectorSize + j))
      d (sectorSize * u32 (first + i) + k) = buf (i * sectorSize + k) := by
  induction n with
  | zero => omega
  | succ n ih =>
    rw [range_succ, foldl_append, foldl_cons, foldl_nil, writeSector]
    rcases Nat.lt_or_ge i n with hlt | hge
    · -- another sector, since the numbers are less than `2 ^ 32` apart
      have hne : u32 (first + i) ≠ u32 (first + n) := by
        unfold u32
        omega
      rw [blit_of_not_mem _ _ (by unfold sectorSize at *; omega)]
      exact ih (by omega) hlt
    · obtain rfl : i = n := by omega
      rw [blit_of_mem _ _ (by omega) (by omega), Nat.add_sub_cancel_left]

theorem foldl_readSector (d : Disk) (first n : ℕ) (buf : Buf) :
    (range n).foldl (fun b i => blit b (i * sectorSize) sectorSize (sector d (first + i))) buf =
      blit buf 0 (sectorSize * n) fun j => d (sectorSize * first + j) := by
  induction n with
  | zero =>
    funext j
    rfl
  | succ n ih =>
    rw [range_succ, foldl_append, ih, foldl_cons, foldl_nil, Nat.mul_succ,
      ← blit_append buf 0 (sectorSize * n), Nat.zero_add, Nat.mul_comm n]
    congr 1
    funext j
    rw [sector, Nat.mul_add, Nat.add_assoc]

theorem writeSector_entry (d : Disk) (lba : ℕ) {off : ℕ} (h : off + 4 ≤ sectorSize) (src : Buf) :
    writeSector d lba (blit (sector d lba) off 4 src) = blit d (sectorSize * lba + off) 4 src :=
  blit_blit_copy d h src

theorem writeMirrors_of_not_mem
    (hfits : s + (numFats - 1) * fatSize < 2 ^ 32)
    (hj : ∀ k, 1 ≤ k → k < numFats → j < sectorSize * (s + k * fatSize) ∨
      sectorSize * (s + k * fatSize) + sectorSize ≤ j) :
    writeMirrors d s numFats fatSize buf j = d j := by
  have hcopies : ∀ m, m ≤ numFats - 1 → (range m).foldl (fun d i =>
      writeSector d (u32 (s + (i + 1) * fatSize)) buf) d j = d j := by
    intro m hm
    induction m with
    | zero => rfl
    | succ m ih =>
      have hle := Nat.mul_le_mul_right fatSize hm
      rw [range_succ, foldl_append, foldl_cons, foldl_nil, u32_of_lt (by omega),
        writeSector, blit_of_not_mem _ _ (hj (m + 1) (by omega) (by omega))]
      exact ih (by omega)
  exact hcopies (numFats - 1) le_rfl

theorem writeMirrors_of_mem (hfits : s + (numFats - 1) * fatSize < 2 ^ 32) (hf : 0 < fatSize)
    (hk : 1 ≤ k) (hk' : k < numFats) (hi : i < sectorSize) :
    writeMirrors d s numFats fatSize buf (sectorSize * (s + k * fatSize) + i) = buf i := by
  have hcopies : ∀ m, m ≤ numFats - 1 → k ≤ m → (range m).foldl (fun d i =>
      writeSector d (u32 (s + (i + 1) * fatSize)) buf) d (sectorSize * (s + k * fatSize) + i) =
        buf i := by
    intro m hm hkm
    induction m with
    | zero => omega
    | succ m ih =>
      have hle := Nat.mul_le_mul_right fatSize hm
      rw [range_succ, foldl_append, foldl_cons, foldl_nil, u32_of_lt (by omega),
        writeSector]
      rcases Nat.lt_or_ge m k with hlt | hge
      · obtain rfl : k = m + 1 := by omega
        rw [blit_of_mem _ _ (by omega) (by omega), Nat.add_sub_cancel_left]
      · -- a later copy is another sector
        have hcopy : k * fatSize ≤ m * fatSize := Nat.mul_le_mul_right fatSize hge
        have hsucc : (m + 1) * fatSize = m * fatSize + fatSize := Nat.succ_mul m fatSize
        rw [blit_of_not_mem _ _ (.inl (by unfold sectorSize at *; omega))]
        exact ih (by omega) hge
  exact hcopies (numFats - 1) le_rfl (by omega)

end Sectors

/-! ## The first sectors -/

section Boot

variable {part : ℕ} {d d' : Disk}

theorem getPartitionLba_congr (hpart : part < 4) (h : ∀ i < 512, sector d' 0 i = sector d 0 i) :
    getPartitionLba part d' = getPartitionLba part d := by
  rw [getPartitionLba, getPartitionLba, h 510 (by omega), h 511 (by omega)]
  refine if_congr Iff.rfl rfl ?_
  exact leNat_congr fun i hi => h _ (by omega)

theorem getBpb_congr (hpart : part < 4) (h : ∀ i < 512, sector d' 0 i = sector d 0 i)
    (hboot : ∀ i < 512, sector d' (getPartitionLba part d) i =
    sector d (getPartitionLba part d) i) :
    getBpb part d' = getBpb part d := by
  have hfield : ∀ k a, a + k ≤ 512 → word k (sector d' (getPartitionLba part d)) a =
      word k (sector d (getPartitionLba part d)) a := by
    intro k a hka
    exact leNat_congr fun i hi => hboot _ (by omega)
  rw [getBpb, getBpb, getPartitionLba_congr hpart h, readBpb, readBpb]
  simp only [hfield 2 11 (by omega), hfield 1 13 (by omega), hfield 2 14 (by omega),
    hfield 1 16 (by omega), hfield 4 36 (by omega), hfield 4 44 (by omega)]

end Boot

/-! ## Layout -/

/-- A layout: the partition and its first sector, the sectors of a cluster, the sectors before the
FAT, the number of copies of the FAT and their size in sectors, and a bound of the cluster numbers.
All sectors have numbers below `2 ^ 32`. -/
structure Layout where
  part : ℕ
  lba : ℕ
  sectorsPerCluster : ℕ
  reserved : ℕ
  numFats : ℕ
  fatSize : ℕ
  clusters : ℕ
  part_lt : part < 4
  reserved_pos : 0 < reserved
  numFats_pos : 0 < numFats
  fits : lba + reserved + numFats * fatSize + sectorsPerCluster * (clusters - 2) ≤ 2 ^ 32

namespace Layout

variable (ℓ : Layout)

def entries : ℕ := 128 * ℓ.fatSize

def fatStart : ℕ := ℓ.lba + ℓ.reserved

def dataStart : ℕ := ℓ.fatStart + ℓ.numFats * ℓ.fatSize

def firstSector (c : ℕ) : ℕ := ℓ.dataStart + ℓ.sectorsPerCluster * (c - 2)

def fatPos (k p : ℕ) : ℕ := 512 * (ℓ.fatStart + k * ℓ.fatSize) + p

def entry (d : Disk) (c : ℕ) : ℕ := word 4 d (ℓ.fatPos 0 (4 * c))

def SameCopies (d : Disk) : Prop :=
  ∀ k < ℓ.numFats, ∀ p < 512 * ℓ.fatSize, d (ℓ.fatPos k p) = d (ℓ.fatPos 0 p)

theorem dataStart_fits : ℓ.dataStart + ℓ.sectorsPerCluster * (ℓ.clusters - 2) ≤ 2 ^ 32 := ℓ.fits

theorem copies : (ℓ.numFats - 1) * ℓ.fatSize + ℓ.fatSize = ℓ.numFats * ℓ.fatSize := by
  have hpos := ℓ.numFats_pos
  rw [← Nat.succ_mul]
  congr 1
  omega

theorem fatStart_le_dataStart : ℓ.fatStart + ℓ.fatSize ≤ ℓ.dataStart := by
  have hcopies := ℓ.copies
  unfold dataStart
  omega

theorem fatStart_pos : 0 < ℓ.fatStart := Nat.add_pos_right _ ℓ.reserved_pos

theorem fatPos_lt (hk : k < ℓ.numFats) (hp : p < 512 * ℓ.fatSize) :
    ℓ.fatPos k p < 512 * ℓ.dataStart := by
  have hmul := Nat.mul_le_mul_right ℓ.fatSize (Nat.succ_le_of_lt hk)
  rw [Nat.succ_mul] at hmul
  unfold fatPos dataStart
  omega

theorem firstSector_add_le_of_lt (hc₂ : 2 ≤ c) (hlt : c < c') :
    ℓ.firstSector c + ℓ.sectorsPerCluster ≤ ℓ.firstSector c' := by
  have hmul := Nat.mul_le_mul_left ℓ.sectorsPerCluster (show c - 2 + 1 ≤ c' - 2 by omega)
  rw [Nat.mul_succ] at hmul
  unfold firstSector
  omega

theorem firstSector_add_le (hc₂ : 2 ≤ c) (hc : c < ℓ.clusters) :
    ℓ.firstSector c + ℓ.sectorsPerCluster ≤ 2 ^ 32 :=
  (ℓ.firstSector_add_le_of_lt hc₂ hc).trans ℓ.dataStart_fits

variable {ℓ} {d : Disk} {buf buf' : Buf} {q : ℕ}

/-- What a sector of the first FAT and its copies hold after the routines have written them. -/
theorem writeMirrors_fatPos (hq : q < ℓ.fatSize) (hk : k < ℓ.numFats) (hp : p < 512 * ℓ.fatSize) :
    writeMirrors (writeSector d (ℓ.fatStart + q) buf) (ℓ.fatStart + q) ℓ.numFats ℓ.fatSize buf'
        (ℓ.fatPos k p) =
      if p / 512 = q then (if k = 0 then buf else buf') (p % 512) else d (ℓ.fatPos k p) := by
  have hdata := ℓ.dataStart_fits
  have hcopies := ℓ.copies
  have hfits : ℓ.fatStart + q + (ℓ.numFats - 1) * ℓ.fatSize < 2 ^ 32 := by
    unfold dataStart at hdata
    omega
  have hone : 1 ≤ k → ℓ.fatSize ≤ k * ℓ.fatSize := fun h => Nat.le_mul_of_pos_left _ h
  -- the sectors of two copies are different
  have hapart :
      ∀ k', 1 ≤ k' → k ≠ k' → ℓ.fatPos k p < sectorSize * (ℓ.fatStart + q + k' * ℓ.fatSize) ∨
      sectorSize * (ℓ.fatStart + q + k' * ℓ.fatSize) + sectorSize ≤ ℓ.fatPos k p := by
    intro k' _ hne
    unfold fatPos sectorSize
    rcases Nat.lt_or_gt_of_ne hne with hlt | hgt
    · have hmul := Nat.mul_le_mul_right ℓ.fatSize hlt
      rw [Nat.succ_mul] at hmul
      omega
    · have hmul := Nat.mul_le_mul_right ℓ.fatSize hgt
      rw [Nat.succ_mul] at hmul
      omega
  split
  · have hpos : ℓ.fatPos k p = sectorSize * (ℓ.fatStart + q + k * ℓ.fatSize) + p % 512 := by
      unfold fatPos sectorSize
      omega
    rcases Nat.eq_zero_or_pos k with rfl | hpos'
    · rw [writeMirrors_of_not_mem hfits fun k' hk' _ => hapart k' hk' (by omega), writeSector, hpos,
        Nat.zero_mul, Nat.add_zero, blit_of_mem _ _ (by omega) (by unfold sectorSize; omega),
        Nat.add_sub_cancel_left, if_pos rfl]
    · have hlt : p % 512 < sectorSize := Nat.mod_lt p (by decide)
      rw [hpos, writeMirrors_of_mem hfits (by omega) hpos' hk hlt, if_neg (by omega)]
  · have hother : ℓ.fatPos k p < sectorSize * (ℓ.fatStart + q + k * ℓ.fatSize) ∨
        sectorSize * (ℓ.fatStart + q + k * ℓ.fatSize) + sectorSize ≤ ℓ.fatPos k p := by
      unfold fatPos sectorSize
      omega
    rw [writeMirrors_of_not_mem hfits, writeSector, blit_of_not_mem]
    · unfold fatPos sectorSize
      rcases Nat.eq_zero_or_pos k with rfl | hpos'
      · omega
      · omega
    · intro k' hk' _
      by_cases hkk : k = k'
      · exact hkk ▸ hother
      · exact hapart k' hk' hkk

theorem SameCopies.writeMirrors (h : ℓ.SameCopies d) (hq : q < ℓ.fatSize) (buf : Buf) :
    ℓ.SameCopies (writeMirrors (writeSector d (ℓ.fatStart + q) buf) (ℓ.fatStart + q) ℓ.numFats
      ℓ.fatSize buf) := by
  intro k hk p hp
  rw [writeMirrors_fatPos hq hk hp, writeMirrors_fatPos hq ℓ.numFats_pos hp]
  split
  · rw [ite_self, ite_self]
  · exact h k hk p hp

theorem writeMirrors_outside (ℓ : Layout) (hq : q < ℓ.fatSize)
    (hj : j < 512 * ℓ.fatStart ∨ 512 * ℓ.dataStart ≤ j) :
    writeMirrors (writeSector d (ℓ.fatStart + q) buf) (ℓ.fatStart + q) ℓ.numFats ℓ.fatSize buf' j =
      d j := by
  have hdata := ℓ.dataStart_fits
  have hcopies := ℓ.copies
  unfold dataStart at hdata hj
  rw [writeMirrors_of_not_mem (by omega), writeSector, blit_of_not_mem]
  · unfold sectorSize
    omega
  · intro k _ hk
    have hmul := Nat.mul_le_mul_right ℓ.fatSize (Nat.le_sub_one_of_lt hk)
    unfold sectorSize
    omega

theorem writeEntry_fatPos (ℓ : Layout) (hc : c < ℓ.entries) (x : ℕ) (hp : p < 512 * ℓ.fatSize) :
    writeMirrors (writeSector d (ℓ.fatStart + c / 128)
        (blit (sector d (ℓ.fatStart + c / 128)) (4 * (c % 128)) 4 (leByte x)))
      (ℓ.fatStart + c / 128) ℓ.numFats ℓ.fatSize buf' (ℓ.fatPos 0 p) =
        blit d (ℓ.fatPos 0 (4 * c)) 4 (leByte x) (ℓ.fatPos 0 p) := by
  have hq : c / 128 < ℓ.fatSize := by
    unfold entries at hc
    omega
  rw [writeMirrors_fatPos hq ℓ.numFats_pos hp, if_pos rfl]
  by_cases hsector : p / 512 = c / 128
  · rw [if_pos hsector]
    -- the entry inside the sector, and inside the disk
    by_cases hin : 4 * (c % 128) ≤ p % 512 ∧ p % 512 < 4 * (c % 128) + 4
    · rw [blit_of_mem _ _ hin.1 hin.2, blit_of_mem] <;> unfold fatPos
      · congr 1
        omega
      · omega
      · omega
    · rw [blit_of_not_mem _ _ (by omega), blit_of_not_mem] <;> unfold fatPos
      · unfold sector sectorSize
        congr 1
        omega
      · omega
  · rw [if_neg hsector, blit_of_not_mem]
    unfold fatPos
    omega

theorem word_fatPos (ℓ : Layout) (d : Disk) (c : ℕ) :
    word 4 (sector d (ℓ.fatStart + c / 128)) (4 * (c % 128)) = ℓ.entry d c := by
  unfold entry word
  congr 1
  funext i
  unfold sector sectorSize fatPos
  congr 1
  omega

theorem entry_of_blit (ℓ : Layout) {d' : Disk} {x : ℕ} (hd : ∀ p < 512 * ℓ.fatSize,
      d' (ℓ.fatPos 0 p) = blit d (ℓ.fatPos 0 (4 * c)) 4 (leByte x) (ℓ.fatPos 0 p))
    (hc' : c' < ℓ.entries) : ℓ.entry d' c' = if c' = c then x % 2 ^ 32 else ℓ.entry d c' := by
  have hbyte : ∀ i < 4, d' (ℓ.fatPos 0 (4 * c') + i) =
      blit d (ℓ.fatPos 0 (4 * c)) 4 (leByte x) (ℓ.fatPos 0 (4 * c') + i) := by
    intro i hi
    have hp := hd (4 * c' + i) (by unfold entries at hc'; omega)
    rwa [fatPos, ← Nat.add_assoc] at hp
  split
  · rename_i hcc
    subst hcc
    have hstored : ℓ.entry d' c' = leNat 4 (leByte x) := by
      refine leNat_congr fun i hi => ?_
      rw [hbyte i hi, blit_of_mem _ _ (by omega) (by omega), Nat.add_sub_cancel_left]
    rw [hstored, leNat_leByte]
    norm_num
  · unfold entry word
    refine leNat_congr fun i hi => ?_
    rw [hbyte i hi, blit_of_not_mem _ _ (by unfold fatPos; omega)]

end Layout

structure OnLayout (ℓ : Layout) (d : Disk) : Prop where
  lba : getPartitionLba ℓ.part d = ℓ.lba
  bytesPerSector : (getBpb ℓ.part d).bytesPerSector = 512
  sectorsPerCluster : (getBpb ℓ.part d).sectorsPerCluster = ℓ.sectorsPerCluster
  reservedSectorCount : (getBpb ℓ.part d).reservedSectorCount = ℓ.reserved
  numFats : (getBpb ℓ.part d).numFats = ℓ.numFats
  fatSize32 : (getBpb ℓ.part d).fatSize32 = ℓ.fatSize

namespace OnLayout

variable {ℓ : Layout} {d d' : Disk} {c : ℕ} (h : OnLayout ℓ d)

include h

theorem getBpb_eq (hd : ∀ j < 512 * ℓ.fatStart, d' j = d j) :
    getPartitionLba ℓ.part d' = getPartitionLba ℓ.part d ∧ getBpb ℓ.part d' = getBpb ℓ.part d := by
  have hreserved := ℓ.reserved_pos
  have hsector : ∀ s < ℓ.fatStart, ∀ i < 512, sector d' s i = sector d s i := by
    intro s hs i hi
    exact hd _ (by unfold sectorSize; omega)
  have hzero := hsector 0 ℓ.fatStart_pos
  refine ⟨getPartitionLba_congr ℓ.part_lt hzero, getBpb_congr ℓ.part_lt hzero ?_⟩
  rw [h.lba]
  exact hsector ℓ.lba (by unfold Layout.fatStart; omega)

theorem congr (hd : ∀ j < 512 * ℓ.fatStart, d' j = d j) : OnLayout ℓ d' := by
  obtain ⟨hlba, hbpb⟩ := h.getBpb_eq hd
  constructor
  · rw [hlba, h.lba]
  · rw [hbpb, h.bytesPerSector]
  · rw [hbpb, h.sectorsPerCluster]
  · rw [hbpb, h.reservedSectorCount]
  · rw [hbpb, h.numFats]
  · rw [hbpb, h.fatSize32]

/-! ### The FAT -/

section

variable (hc : c < ℓ.entries) (hlt : c < 2 ^ 30)
include hc hlt

theorem fatSector_eq :
    fatSector ℓ.part d c = ℓ.fatStart + c / 128 := by
  have hdata := ℓ.dataStart_fits
  have hstart := ℓ.fatStart_le_dataStart
  have hdiv : c / 128 < ℓ.fatSize := by
    unfold Layout.entries at hc
    omega
  unfold Layout.fatStart at *
  rw [fatSector, h.bytesPerSector, h.reservedSectorCount, h.lba, u32_of_lt (x := c * 4) (by omega),
    u32_of_lt (by omega)]
  omega

theorem getFatEntry :
    fat32GetFatEntry ℓ.part d c = mask28 (ℓ.entry d c) := by
  rw [fat32GetFatEntry, h.fatSector_eq hc hlt, h.bytesPerSector, u32_of_lt (by omega),
    show c * 4 % 512 = 4 * (c % 128) by omega, Layout.word_fatPos]

theorem setFatEntry_eq (x : ℕ) :
    fat32SetFatEntry ℓ.part d c x = writeMirrors (writeSector d (ℓ.fatStart + c / 128)
        (blit (sector d (ℓ.fatStart + c / 128)) (4 * (c % 128)) 4 (leByte (mask28 x))))
      (ℓ.fatStart + c / 128) ℓ.numFats ℓ.fatSize
        (blit (sector d (ℓ.fatStart + c / 128)) (4 * (c % 128)) 4 (leByte (mask28 x))) := by
  rw [fat32SetFatEntry, h.fatSector_eq hc hlt, h.bytesPerSector, h.numFats, h.fatSize32,
    u32_of_lt (by omega), show c * 4 % 512 = 4 * (c % 128) by omega]

theorem setFatEntry (x : ℕ) :
    OnLayout ℓ (fat32SetFatEntry ℓ.part d c x) ∧
      (∀ c' < ℓ.entries, ℓ.entry (fat32SetFatEntry ℓ.part d c x) c' =
        if c' = c then mask28 x else ℓ.entry d c') ∧
      ∀ j, j < 512 * ℓ.fatStart ∨ 512 * ℓ.dataStart ≤ j →
        fat32SetFatEntry ℓ.part d c x j = d j := by
  have hq : c / 128 < ℓ.fatSize := by
    unfold Layout.entries at hc
    omega
  have hmask : mask28 x % 2 ^ 32 = mask28 x := Nat.mod_eq_of_lt (by unfold mask28; omega)
  rw [h.setFatEntry_eq hc hlt]
  refine ⟨h.congr fun j hj => ℓ.writeMirrors_outside hq (.inl hj), ?_,
    fun j hj => ℓ.writeMirrors_outside hq hj⟩
  intro c' hc'
  rw [ℓ.entry_of_blit (fun p hp => ℓ.writeEntry_fatPos hc _ hp) hc', hmask]

end

theorem findBlankCluster_eq : findBlankCluster ℓ.part d =
    ((range' 2 (u32 ℓ.entries - 2)).find? fun c => mask28 (ℓ.entry d c) == 0).getD 0 := by
  have hdata := ℓ.dataStart_fits
  have hstart := ℓ.fatStart_le_dataStart
  have hcount : ℓ.fatSize * (512 / 4) = ℓ.entries := Nat.mul_comm _ _
  rw [findBlankCluster, h.bytesPerSector, h.reservedSectorCount, h.fatSize32, h.lba, hcount]
  refine congrArg (Option.getD · 0) (find?_congr ?_)
  intro c hc
  have hlt : c < ℓ.entries := by
    have hmod : u32 ℓ.entries ≤ ℓ.entries := Nat.mod_le _ _
    have hmem := mem_range'_1.mp hc
    omega
  dsimp only
  rw [← Layout.word_fatPos, show ℓ.lba + ℓ.reserved = ℓ.fatStart from rfl,
    u32_of_lt (x := ℓ.fatStart) (by omega), u32_of_lt (by omega)]

/-! ### Clusters -/

section

variable (hpos : 0 < ℓ.sectorsPerCluster)
include hpos

theorem firstSector_eq (hc₂ : 2 ≤ c) (hc : c < ℓ.clusters) :
    firstSectorOfCluster ℓ.part d c = ℓ.firstSector c := by
  have hlast := ℓ.firstSector_add_le hc₂ hc
  unfold Layout.firstSector Layout.dataStart Layout.fatStart at *
  have hfirst : firstDataSector ℓ.part d = ℓ.reserved + ℓ.numFats * ℓ.fatSize := by
    rw [firstDataSector, h.reservedSectorCount, h.numFats, h.fatSize32]
    exact u32_of_lt (by omega)
  rw [firstSectorOfCluster, hfirst, h.lba, h.sectorsPerCluster, Nat.mul_comm (c - 2),
    u32_of_lt (by omega)]
  omega

theorem readCluster_eq (hle : ℓ.sectorsPerCluster ≤ 8) (hc₂ : 2 ≤ c) (hc : c < ℓ.clusters)
    (buf : Buf) :
    readCluster ℓ.part d c buf = (blit buf 0 (sectorSize * ℓ.sectorsPerCluster) fun j =>
      d (sectorSize * ℓ.firstSector c + j), 0) := by
  have hlast := ℓ.firstSector_add_le hc₂ hc
  rw [readCluster, h.firstSector_eq hpos hc₂ hc, h.bytesPerSector, h.sectorsPerCluster,
    if_neg (by omega), if_neg (by unfold clusterSize; omega), ← foldl_readSector]
  refine congrArg (·, (0 : ℤ)) (foldl_ext _ _ _ ?_)
  intro b i hi
  rw [u32_of_lt (by have := mem_range.mp hi; omega)]

theorem writeCluster_eq (hc₂ : 2 ≤ c) (hc : c < ℓ.clusters) (hfit : ℓ.firstSector c + 8 ≤ 2 ^ 32)
    (buf : Buf) :
    writeCluster ℓ.part d c buf = (blit d (sectorSize * ℓ.firstSector c) clusterSize buf, 0) := by
  rw [writeCluster, h.firstSector_eq hpos hc₂ hc, if_neg (by omega)]
  refine congrArg (·, (0 : ℤ)) ((foldl_ext _ _ _ ?_).trans (foldl_writeSector d _ 8 buf))
  intro d i hi
  have hi' : i < 8 := mem_range.mp hi
  rw [u32_of_lt (by omega)]

theorem writeCluster_mem (hc₂ : 2 ≤ c) (hc : c < ℓ.clusters) (hi : i < 8) (hk : k < sectorSize)
    (buf : Buf) :
    (writeCluster ℓ.part d c buf).1 (sectorSize * u32 (ℓ.firstSector c + i) + k) =
      buf (i * sectorSize + k) := by
  rw [writeCluster, h.firstSector_eq hpos hc₂ hc, if_neg (by omega)]
  exact foldl_writeSector_mem d buf (by decide) hi hk

end

end OnLayout

/-! ## Laws of the FAT -/

/-- **Writing an entry** changes what is read for it and for no other one, and makes the copies of
its sector equal. -/
theorem fatEntry_laws {ℓ : Layout} {d : Disk} {c : ℕ} (h : OnLayout ℓ d) (hc : c < ℓ.entries)
    (hlt : c < 2 ^ 28) (x : ℕ) :
    fat32GetFatEntry ℓ.part (fat32SetFatEntry ℓ.part d c x) c = mask28 x ∧
      (∀ c' < ℓ.entries, c' < 2 ^ 28 → c' ≠ c →
        fat32GetFatEntry ℓ.part (fat32SetFatEntry ℓ.part d c x) c' =
          fat32GetFatEntry ℓ.part d c') ∧
      (∀ k < ℓ.numFats, ∀ p, p / 512 = c / 128 →
        fat32SetFatEntry ℓ.part d c x (ℓ.fatPos k p) =
          fat32SetFatEntry ℓ.part d c x (ℓ.fatPos 0 p)) ∧
      ∀ j, j < 512 * ℓ.fatStart ∨ 512 * ℓ.dataStart ≤ j →
        fat32SetFatEntry ℓ.part d c x j = d j := by
  obtain ⟨hlayout, hentry, houtside⟩ := h.setFatEntry hc (by omega) x
  refine ⟨?_, ?_, ?_, houtside⟩
  · rw [hlayout.getFatEntry hc (by omega), hentry c hc, if_pos rfl]
    simp [mask28]
  · intro c' hc' hlt' hne
    rw [hlayout.getFatEntry hc' (by omega), hentry c' hc', if_neg hne,
      h.getFatEntry hc' (by omega)]
  · intro k hk p hp
    unfold Layout.entries at hc
    rw [h.setFatEntry_eq hc (by omega), Layout.writeMirrors_fatPos (by omega) hk (by omega),
      Layout.writeMirrors_fatPos (by omega) ℓ.numFats_pos (by omega), if_pos hp, if_pos hp]
    simp

/-- The field `total_sectors_32` of the boot sector, which the driver does not read. -/
def totalSectors32 (part : ℕ) (d : Disk) : ℕ :=
  word 4 (sector d (getPartitionLba part d)) 32

namespace Layout

def HasCluster (ℓ : Layout) (d : Disk) (c : ℕ) : Prop :=
  2 ≤ c ∧ ℓ.firstSector c + ℓ.sectorsPerCluster ≤ ℓ.lba + totalSectors32 ℓ.part d

/-- A cluster of the partition that is free. -/
def Blank (ℓ : Layout) (d : Disk) (c : ℕ) : Prop :=
  ℓ.HasCluster d c ∧ mask28 (ℓ.entry d c) = 0

/-- The number of the first free cluster of the partition, and 0 if it has none. -/
def FirstBlank (ℓ : Layout) (d : Disk) (r : ℕ) : Prop :=
  (ℓ.Blank d r ∧ ∀ c < r, ¬ ℓ.Blank d c) ∨ r = 0 ∧ ∀ c, ¬ ℓ.Blank d c

theorem HasCluster.of_le {ℓ : Layout} {d : Disk} (h : ℓ.HasCluster d c) (hc' : 2 ≤ c')
    (hle : c' ≤ c) : ℓ.HasCluster d c' := by
  obtain ⟨-, hend⟩ := h
  have hmul := Nat.mul_le_mul_left ℓ.sectorsPerCluster (show c' - 2 ≤ c - 2 by omega)
  unfold firstSector at hend
  refine ⟨hc', ?_⟩
  unfold firstSector
  omega

end Layout

/-- **A new cluster exists on the disk** exactly if the partition has a free cluster or the FAT no
free entry: `find_blank_cluster` goes on behind the data area. -/
theorem firstBlank_iff {ℓ : Layout} {d : Disk} (h : OnLayout ℓ d) :
    ℓ.FirstBlank d (findBlankCluster ℓ.part d) ↔
      (∃ c < u32 ℓ.entries, ℓ.Blank d c) ∨ (∀ c, ¬ ℓ.Blank d c) ∧
        ∀ c, 2 ≤ c → c < u32 ℓ.entries → mask28 (ℓ.entry d c) ≠ 0 := by
  rw [h.findBlankCluster_eq]
  cases hfind : (range' 2 (u32 ℓ.entries - 2)).find? fun c => mask28 (ℓ.entry d c) == 0 with
  | none =>
    have hused : ∀ c, 2 ≤ c → c < u32 ℓ.entries → mask28 (ℓ.entry d c) ≠ 0 := by
      intro c hc₂ hc
      simpa using find?_range'_eq_none.mp hfind c hc₂ (by omega)
    constructor
    · rintro (⟨⟨⟨hzero, -⟩, -⟩, -⟩ | ⟨-, hnone⟩)
      · cases hzero
      · exact .inr ⟨hnone, hused⟩
    · rintro (⟨c, hc, hblank⟩ | ⟨hnone, -⟩)
      · exact absurd hblank.2 (hused c hblank.1.1 hc)
      · exact .inr ⟨rfl, hnone⟩
  | some r =>
    obtain ⟨hfree, hmem, hbefore⟩ := find?_range'_eq_some.mp hfind
    obtain ⟨hr₂, hr⟩ := mem_range'_1.mp hmem
    have hfree : mask28 (ℓ.entry d r) = 0 := by simpa using hfree
    have hbefore : ∀ c, 2 ≤ c → mask28 (ℓ.entry d c) = 0 → r ≤ c := by
      intro c hc₂ hzero
      by_contra hlt
      simpa [hzero] using hbefore c hc₂ (by omega)
    rw [Option.getD_some]
    constructor
    · rintro (⟨hblank, -⟩ | ⟨hzero, -⟩)
      · exact .inl ⟨r, by omega, hblank⟩
      · omega
    · rintro (⟨c, -, hcluster, hzero⟩ | ⟨-, hused⟩)
      · -- what is found lies before every free cluster of the partition
        have hle := hbefore c hcluster.1 hzero
        refine .inl ⟨⟨hcluster.of_le hr₂ hle, hfree⟩, fun c' hlt hblank => ?_⟩
        have := hbefore c' hblank.1.1 hblank.2
        omega
      · exact absurd hfree (hused r hr₂ (by omega))

/-! ## Writing a cluster -/

/-- **A write stays in its cluster**: it reads back, and the other clusters, the FATs and the
reserved area are as they were. -/
structure WriteStays (ℓ : Layout) (d : Disk) (c : ℕ) (buf : Buf) : Prop where
  returns : (writeCluster ℓ.part d c buf).2 = 0
  readBack : ∀ tmp, (readCluster ℓ.part (writeCluster ℓ.part d c buf).1 c tmp).2 = 0 ∧
    ∀ i < sectorSize * ℓ.sectorsPerCluster,
      (readCluster ℓ.part (writeCluster ℓ.part d c buf).1 c tmp).1 i = buf i
  others : ∀ c', 2 ≤ c' → c' < ℓ.clusters → c' ≠ c → ∀ i < sectorSize * ℓ.sectorsPerCluster,
    (writeCluster ℓ.part d c buf).1 (sectorSize * ℓ.firstSector c' + i) =
      d (sectorSize * ℓ.firstSector c' + i)
  fats : ∀ k < ℓ.numFats, ∀ p < 512 * ℓ.fatSize,
    (writeCluster ℓ.part d c buf).1 (ℓ.fatPos k p) = d (ℓ.fatPos k p)
  reserved : ∀ j, sectorSize * ℓ.lba ≤ j → j < sectorSize * ℓ.fatStart →
    (writeCluster ℓ.part d c buf).1 j = d j

section Writing

variable {ℓ : Layout} {d : Disk} {c : ℕ} (h : OnLayout ℓ d) (hpos : 0 < ℓ.sectorsPerCluster)
  (hle : ℓ.sectorsPerCluster ≤ 8) (hc₂ : 2 ≤ c) (hc : c < ℓ.clusters)

include h hpos hc₂ hc

include hle in
/-- The eight sectors are those of the cluster, or there is no cluster behind them. -/
theorem writeStays_of_fits (hfit : ℓ.firstSector c + 8 ≤ 2 ^ 32)
    (hlast : ℓ.sectorsPerCluster = 8 ∨ c + 1 = ℓ.clusters) (buf : Buf) : WriteStays ℓ d c buf := by
  have hwrite := h.writeCluster_eq hpos hc₂ hc hfit buf
  have hdata := ℓ.fatStart_le_dataStart
  have hfirst : ℓ.dataStart ≤ ℓ.firstSector c := Nat.le_add_right _ _
  have hbefore : ∀ j < sectorSize * ℓ.dataStart, (writeCluster ℓ.part d c buf).1 j = d j := by
    intro j hj
    rw [hwrite]
    exact blit_of_not_mem _ _ (.inl (by unfold sectorSize at *; omega))
  have hlayout : OnLayout ℓ (writeCluster ℓ.part d c buf).1 :=
    h.congr fun j hj => hbefore j (by unfold sectorSize; omega)
  constructor
  · rw [hwrite]
  · intro tmp
    rw [hlayout.readCluster_eq hpos hle hc₂ hc]
    refine ⟨rfl, ?_⟩
    intro i hi
    dsimp only
    rw [blit_of_mem _ _ (Nat.zero_le i) (by omega), hwrite, Nat.sub_zero]
    dsimp only
    rw [blit_of_mem _ _ (by omega) (by unfold sectorSize clusterSize at *; omega),
      Nat.add_sub_cancel_left]
  · intro c' hc2' hc' hne i hi
    rw [hwrite]
    refine blit_of_not_mem _ _ ?_
    unfold sectorSize clusterSize at *
    rcases Nat.lt_or_gt_of_ne hne with hlt | hgt
    · have hnext := ℓ.firstSector_add_le_of_lt hc2' hlt
      omega
    · -- a later cluster, so there is one behind `c`
      have hnext := ℓ.firstSector_add_le_of_lt hc₂ hgt
      omega
  · intro k hk p hp
    exact hbefore _ (by have := ℓ.fatPos_lt hk hp; unfold sectorSize; omega)
  · intro j _ hj
    exact hbefore j (by unfold sectorSize at *; omega)

theorem not_writeStays_of_next (hlt : ℓ.sectorsPerCluster < 8) (hnext : c + 1 < ℓ.clusters) :
    ¬ ∀ buf, WriteStays ℓ d c buf := by
  intro hall
  have hstep : ℓ.firstSector (c + 1) = ℓ.firstSector c + ℓ.sectorsPerCluster := by
    unfold Layout.firstSector
    rw [show c + 1 - 2 = c - 2 + 1 by omega, Nat.mul_add]
    omega
  have hbound := ℓ.firstSector_add_le (c := c + 1) (by omega) hnext
  -- a buffer that differs from the first byte of the next cluster
  have hstays := (hall fun _ => d (sectorSize * ℓ.firstSector (c + 1)) + 1).others (c + 1)
    (by omega) hnext (by omega) 0 (by unfold sectorSize; omega)
  have hmem := h.writeCluster_mem hpos hc₂ hc hlt (k := 0) (by decide)
    fun _ => d (sectorSize * ℓ.firstSector (c + 1)) + 1
  rw [u32_of_lt (by omega), ← hstep, hstays] at hmem
  exact absurd hmem.symm (by simp)

theorem not_writeStays_of_wrap (hwrap : 2 ^ 32 < ℓ.firstSector c + 8) :
    ¬ ∀ buf, WriteStays ℓ d c buf := by
  intro hall
  have hbound := ℓ.firstSector_add_le hc₂ hc
  obtain ⟨i, hi⟩ := Nat.exists_eq_add_of_le (show ℓ.firstSector c ≤ 2 ^ 32 by omega)
  set d' := (writeCluster ℓ.part d c fun _ => 0).1 with hd'
  have hzero : ∀ k < 512, sector d' 0 k = 0 := by
    intro k hk
    have hmem := h.writeCluster_mem hpos hc₂ hc (show i < 8 by omega) hk fun _ => 0
    rwa [← hi, show u32 (2 ^ 32) = 0 by decide] at hmem
  have hlba : getPartitionLba ℓ.part d' = 0 := by
    rw [getPartitionLba, hzero 510 (by omega), if_pos (.inl (by decide))]
  have hbpb : (getBpb ℓ.part d').sectorsPerCluster = 0 := by
    rw [getBpb, hlba]
    simp [readBpb, word, leNat, hzero 13 (by omega)]
  -- no sector is read, so a buffer of ones stays one
  have hread := ((hall fun _ => 0).readBack fun _ => 1).2 0 (by unfold sectorSize; omega)
  rw [← hd', readCluster, if_neg (by omega), hbpb, if_neg (by omega)] at hread
  simp at hread

include hle in
/-- **When writing a cluster stays in it**: `write_cluster` always writes eight sectors. -/
theorem writeStays_iff :
    (∀ buf, WriteStays ℓ d c buf) ↔
      ℓ.sectorsPerCluster = 8 ∨ c + 1 = ℓ.clusters ∧ ℓ.firstSector c + 8 ≤ 2 ^ 32 := by
  have hbound := ℓ.firstSector_add_le hc₂ hc
  constructor
  · intro hall
    by_contra hnot
    by_cases hlast : c + 1 = ℓ.clusters
    · exact not_writeStays_of_wrap h hpos hc₂ hc (by omega) hall
    · exact not_writeStays_of_next h hpos hc₂ hc (by omega) (by omega) hall
  · rintro (height | ⟨hlast, hfit⟩) buf
    · exact writeStays_of_fits h hpos hle hc₂ hc (by omega) (.inl height) buf
    · exact writeStays_of_fits h hpos hle hc₂ hc hfit (.inr hlast) buf

end Writing

def oneSectorLayout : Layout where
  part := 0
  lba := 1
  sectorsPerCluster := 1
  reserved := 1
  numFats := 1
  fatSize := 1
  clusters := 128
  part_lt := Nat.zero_lt_succ _
  reserved_pos := Nat.one_pos
  numFats_pos := Nat.one_pos
  fits := by decide

/-- A disk with this layout, and zeros behind its boot sector. -/
def oneSectorDisk : Disk := fun p =>
  ([(454, 1), (510, 0x55), (511, 0xAA), (512 + 12, 2), (512 + 13, 1), (512 + 14, 1), (512 + 16, 1),
    (512 + 36, 1), (512 + 44, 2)].lookup p).getD 0

theorem oneSectorDisk_onLayout : OnLayout oneSectorLayout oneSectorDisk :=
  ⟨by decide, by decide, by decide, by decide, by decide,
    by decide⟩

theorem fatEntry_laws_oneSectorDisk :
    fat32GetFatEntry 0 (fat32SetFatEntry 0 oneSectorDisk 5 7) 5 = 7 :=
  (fatEntry_laws (c := 5) oneSectorDisk_onLayout (by decide) (by decide) 7).1

/-- A volume with four clusters, of which the first `used` are not free, and 122 spare entries. -/
def spareDisk (used : ℕ) : Disk := fun p =>
  if 1032 ≤ p ∧ p < 1032 + 4 * used then 0xFF else if p = 512 + 32 then 6 else oneSectorDisk p

theorem spareDisk_onLayout (used : ℕ) : OnLayout oneSectorLayout (spareDisk used) := by
  have hzero : OnLayout oneSectorLayout (spareDisk 0) :=
    ⟨by decide +kernel, by decide +kernel, by decide +kernel, by decide +kernel, by decide +kernel,
      by decide +kernel⟩
  refine hzero.congr fun j hj => ?_
  have hj : j < 1024 := hj
  simp only [spareDisk, show ¬ 1032 ≤ j by omega, false_and, if_false]

/-- The last of the four clusters is found. -/
theorem firstBlank_iff_spareDisk :
    oneSectorLayout.FirstBlank (spareDisk 3) (findBlankCluster 0 (spareDisk 3)) :=
  (firstBlank_iff (spareDisk_onLayout 3)).mpr
    (.inl ⟨5, by decide +kernel, ⟨by decide, by decide +kernel⟩, by decide +kernel⟩)

/-- **A cluster behind the end of the partition** is found when the four clusters are in use. -/
theorem blank_behind_partition :
    (∀ c, oneSectorLayout.HasCluster (spareDisk 4) c → c < oneSectorLayout.entries) ∧
      findBlankCluster 0 (spareDisk 4) = 6 ∧ ¬ oneSectorLayout.FirstBlank (spareDisk 4) 6 := by
  have hbound : ∀ c, oneSectorLayout.HasCluster (spareDisk 4) c → c ≤ 5 := by
    rintro c ⟨hc₂, hend⟩
    have hend : 1 + 1 + 1 * 1 + 1 * (c - 2) + 1 ≤ 1 + 6 := hend
    omega
  refine ⟨fun c hc => lt_of_le_of_lt (hbound c hc) (by decide), by decide +kernel, ?_⟩
  rintro (⟨⟨hcluster, -⟩, -⟩ | ⟨hzero, -⟩)
  · exact absurd (hbound 6 hcluster) (by decide)
  · cases hzero

/-- The last cluster of this volume has nothing behind it. -/
theorem writeStays_iff_oneSectorDisk :
    OnLayout oneSectorLayout oneSectorDisk ∧
      ∀ buf, WriteStays oneSectorLayout oneSectorDisk 127 buf :=
  ⟨oneSectorDisk_onLayout,
    (writeStays_iff oneSectorDisk_onLayout (by decide) (by decide) (by decide) (by decide)).mpr
      (.inr ⟨rfl, by decide⟩)⟩

/-- **A write runs into the next cluster**, on a volume with clusters of one sector. -/
theorem write_overruns_cluster :
    OnLayout oneSectorLayout oneSectorDisk ∧
      ¬ WriteStays oneSectorLayout oneSectorDisk 2 (fun _ => 1) := by
  refine ⟨oneSectorDisk_onLayout, ?_⟩
  intro hstays
  have hsame := hstays.others 3 (by decide) (by decide) (by decide) 0 (by decide)
  exact absurd hsame (by decide +kernel)

end CarrotOS.Fat32
