import CarrotOS.Fs.Content

/-!
# Reading a file

`fat32_read_file_bytes` combines two lookups: the first cluster comes from `find_cluster_from_path`,
the size from `get_file_size`. The request is clamped to that size, and the loop then walks the
chain until all bytes are copied.

An entry of an empty file has no first cluster, and its number 0 is taken for the failure of the
lookup. And the clamp compares the size with `offset + size` in 64 bits: a sum that wraps around is
small, the request is not clamped, and the loop copies until the chain ends. So the second result is
stated for disks and sizes of every kind, with the chain as the FAT has it.
-/

namespace CarrotOS.Fat32

open Word Bytes

/-! ## The slice that is read -/

/-- The result is the number of bytes between the offset and the smaller of the ends of the request
and of the file; these bytes of the chain are stored, and nothing behind them. -/
def ReadsSlice (g : Geometry) (junk : ℕ → Buf) (d : Disk) (path : List UInt8)
    (offset size c s : ℕ) : Prop :=
  ∀ buf, (fat32ReadFileBytes g.part junk d path buf offset size).1 = (min size (s - offset) : ℕ) ∧
    (∀ j < min size (s - offset), (fat32ReadFileBytes g.part junk d path buf offset size).2 j =
      (vol g d).byteOf c (offset + j)) ∧
    ∀ j, min size (s - offset) ≤ j →
      (fat32ReadFileBytes g.part junk d path buf offset size).2 j = buf j

section Slice

variable {g : Geometry} {junk : ℕ → Buf} {d : Disk} {path : List UInt8} {offset size c s : ℕ}

theorem clamp_eq (hoff : offset < s) (hfit : offset + size < 2 ^ 64) :
    (if s < u64 (offset + size) then s - offset else size) = min size (s - offset) := by
  rw [u64_of_lt hfit]
  split <;> omega

variable (h : OnDisk g d)
  (hcluster : findClusterFromPath g.part (fun n => junk (n + 2)) d path = c)
  (hsize : getFileSize g.part (junk 0) d path = s)
  (hchain : ∀ q, clusterSize * q < s → 2 ≤ (vol g d).nth c q ∧ (vol g d).nth c q < g.clusters)
  (hfit : offset + size < 2 ^ 64)

include h hcluster hsize hchain hfit

/-- A file with a first cluster. -/
theorem readsSlice_of_ne_zero (hc : c ≠ 0) : ReadsSlice g junk d path offset size c s := by
  have hr : Rep g False d (vol g d) := ⟨h, rfl, False.elim⟩
  intro buf
  rw [fat32ReadFileBytes, hcluster, if_neg hc, hsize]
  rcases Nat.lt_or_ge offset s with hoff | hoff
  · have hmod : offset % clusterSize < clusterSize := Nat.mod_lt _ (by decide)
    have hdiv := Nat.div_add_mod offset clusterSize
    -- the clusters that hold the first `s` bytes
    obtain ⟨len, hlen⟩ : ∃ len, ∀ q, q < len ↔ clusterSize * q < s := by
      refine ⟨(s + clusterSize - 1) / clusterSize, fun q => ?_⟩
      unfold clusterSize
      omega
    have hrange : ∀ q < len, 2 ≤ (vol g d).nth c q ∧ (vol g d).nth c q < g.clusters := fun q hq =>
      hchain q ((hlen q).mp hq)
    have hend : s ≤ clusterSize * len := by
      by_contra hlt
      exact absurd ((hlen len).mpr (by omega)) (Nat.lt_irrefl len)
    have hskip := hr.skipClusters_eq (c := c) (n := offset / clusterSize) fun j hj =>
      (hrange j ((hlen j).mpr (by unfold clusterSize at *; omega))).2
    rw [if_neg (Nat.not_le.mpr hoff), clamp_eq hoff hfit, hskip]
    dsimp only
    have hall : clusterSize * (offset / clusterSize) + offset % clusterSize +
        min size (s - offset) ≤ clusterSize * len := by omega
    rw [hr.readLoop_spec hrange hmod le_rfl hall, hdiv]
    refine ⟨by rw [Nat.zero_add], ?_, ?_⟩
    · intro j hj
      dsimp only
      rw [blit_of_mem _ _ (Nat.zero_le j) (by omega), Nat.sub_zero]
    · intro j hj
      dsimp only
      rw [blit_of_not_mem _ _ (.inr (by omega))]
  · rw [if_pos hoff, show min size (s - offset) = 0 by omega]
    exact ⟨rfl, fun j hj => absurd hj (Nat.not_lt_zero j), fun _ _ => rfl⟩

/-- **The right slice is read** exactly from the files that have a first cluster, for every request
that does not wrap around. -/
theorem readsSlice_iff : ReadsSlice g junk d path offset size c s ↔ c ≠ 0 := by
  refine ⟨?_, readsSlice_of_ne_zero h hcluster hsize hchain hfit⟩
  intro hslice hzero
  have hresult := (hslice fun _ => 0).1
  rw [fat32ReadFileBytes, hcluster, if_pos hzero] at hresult
  -- the lookup counts as failed
  dsimp only at hresult
  omega

end Slice

/-- The end of a file that fills its cluster. -/
theorem readsSlice_iff_fullDisk :
    findClusterFromPath smallGeometry.part (fun _ _ => 0) fullDisk [slash, 0x41] = 3 ∧
      ReadsSlice smallGeometry (fun _ _ => 0) fullDisk [slash, 0x41] 4000 200 3 4096 := by
  obtain ⟨hcluster, hsize⟩ :
      findClusterFromPath smallGeometry.part (fun _ _ => 0) fullDisk [slash, 0x41] = 3 ∧
        getFileSize smallGeometry.part (fun _ => 0) fullDisk [slash, 0x41] = 4096 := by
    decide
  have hdisk : OnDisk smallGeometry fullDisk := smallDisk_onDisk _ _
  refine ⟨hcluster, (readsSlice_iff hdisk ?_ ?_ ?_ (by decide)).mpr (by decide)⟩
  · exact hcluster
  · exact hsize
  intro q hq
  obtain rfl : q = 0 := by
    unfold clusterSize at hq
    omega
  exact ⟨by decide, by decide⟩

/-- An empty file, as truncating leaves it. -/
def emptyFileDisk : Disk :=
  smallDisk [0x0FFFFFF8, 0x0FFFFFFF, 0x0FFFFFF8] [newEntry (formatName83 [0x41]) 0x20 0]

/-- **An empty file is not read**: the result is -1, and not 0. -/
theorem read_empty_fails : OnDisk smallGeometry emptyFileDisk ∧
    findClusterFromPath smallGeometry.part (fun _ _ => 0) emptyFileDisk [slash, 0x41] = 0 ∧
    getFileSize smallGeometry.part (fun _ => 0) emptyFileDisk [slash, 0x41] = 0 ∧
    (fat32ReadFileBytes smallGeometry.part (fun _ _ => 0) emptyFileDisk [slash, 0x41] (fun _ => 0)
      0 1).1 = -1 ∧
    ¬ ReadsSlice smallGeometry (fun _ _ => 0) emptyFileDisk [slash, 0x41] 0 1 0 0 := by
  refine (fun hfails => ⟨smallDisk_onDisk _ _, by decide, by decide, hfails, ?_⟩) (by decide)
  intro hslice
  have hresult := (hslice fun _ => 0).1
  rw [hfails] at hresult
  simp at hresult

/-! ## Where the loop stops -/

/-- The cluster number `q` of the chain that starts at `c`, as `get_next_cluster` gives it. -/
def nthCluster (part : ℕ) (d : Disk) (c : ℕ) : ℕ → ℕ
  | 0 => c
  | q + 1 => getNextCluster part d (nthCluster part d c q)

/-- A cluster that the loop of `fat32_read_file_bytes` copies from. -/
def Readable (part : ℕ) (d : Disk) (k : ℕ) : Prop :=
  2 ≤ k ∧ k < fat32Eoc ∧
    (getBpb part d).sectorsPerCluster * (getBpb part d).bytesPerSector ≤ clusterSize

section Loop

variable {part : ℕ} {d : Disk} {c q fuel size cluster off total j : ℕ} {tmp buf : Buf}

theorem nthCluster_succ' (part : ℕ) (d : Disk) (c q : ℕ) :
    nthCluster part d c (q + 1) = nthCluster part d (getNextCluster part d c) q := by
  induction q with
  | zero => rfl
  | succ q ih => rw [nthCluster, ih, nthCluster]

theorem getNextCluster_lt (part : ℕ) (d : Disk) (c : ℕ) : getNextCluster part d c < fat32Eoc := by
  rw [getNextCluster]
  split
  · decide
  · omega

theorem skipClusters_eq_nthCluster (part : ℕ) (d : Disk) (n c : ℕ) :
    skipClusters part d n c = some (nthCluster part d c n) := by
  induction n generalizing c with
  | zero => rfl
  | succ n ih =>
    rw [skipClusters, if_neg (Nat.not_le.mpr (getNextCluster_lt part d c)), ih, nthCluster_succ']

theorem readCluster_eq_zero_iff (part : ℕ) (d : Disk) (k : ℕ) (tmp : Buf) :
    (readCluster part d k tmp).2 = 0 ↔
      2 ≤ k ∧ (getBpb part d).sectorsPerCluster * (getBpb part d).bytesPerSector ≤ clusterSize := by
  rw [readCluster]
  split
  · simp; omega
  · split <;> simp <;> omega

theorem readLoop_turn (hsize : 0 < size) (hread : Readable part d cluster) :
    readLoop part d (fuel + 1) size cluster off total tmp buf =
      readLoop part d fuel (size - min (clusterSize - off) size)
        (if 0 < size - min (clusterSize - off) size then getNextCluster part d cluster else cluster)
        0
        (total + min (clusterSize - off) size) (readCluster part d cluster tmp).1
        (blit buf total (min (clusterSize - off) size) fun k =>
          (readCluster part d cluster tmp).1 (off + k)) := by
  have hok := (readCluster_eq_zero_iff part d cluster tmp).mpr ⟨hread.1, hread.2.2⟩
  rw [readLoop, if_pos ⟨hsize, hread.2.1⟩]
  rw [if_neg (not_not.mpr hok)]

theorem readLoop_of_not_readable (hread : ¬ Readable part d cluster) :
    (readLoop part d fuel size cluster off total tmp buf).2 = buf := by
  cases fuel with
  | zero => rfl
  | succ fuel =>
    rw [readLoop]
    split
    · rename_i hloop
      have hfail : (readCluster part d cluster tmp).2 ≠ 0 := by
        rw [Ne, readCluster_eq_zero_iff]
        intro hok
        exact hread ⟨hok.1, hloop.2, hok.2⟩
      rw [if_pos hfail]
    · rfl

theorem readLoop_zero : (readLoop part d fuel 0 cluster off total tmp buf).2 = buf := by
  cases fuel with
  | zero => rfl
  | succ fuel => rw [readLoop, if_neg (by omega)]

theorem readLoop_frame (hj : j < total ∨ total + size ≤ j) :
    (readLoop part d fuel size cluster off total tmp buf).2 j = buf j := by
  induction fuel generalizing size cluster off total tmp buf with
  | zero => rfl
  | succ fuel ih =>
    by_cases hread : Readable part d cluster
    · rcases Nat.eq_zero_or_pos size with rfl | hsize
      · rw [readLoop_zero]
      · rw [readLoop_turn hsize hread, ih (by omega), blit_of_not_mem _ _ (by omega)]
    · rw [readLoop_of_not_readable hread]

/-- No byte of a cluster that is not read, or of a later one, is stored. -/
theorem readLoop_stops {q' : ℕ} (hq : q ≤ q') (hstop : ¬ Readable part d (nthCluster part d c q'))
    (hoff : off < clusterSize) (hj : total + (clusterSize * q' - (clusterSize * q + off)) ≤ j) :
    (readLoop part d fuel size (nthCluster part d c q) off total tmp buf).2 j = buf j := by
  induction fuel generalizing size q off total tmp buf with
  | zero => rfl
  | succ fuel ih =>
    by_cases hread : Readable part d (nthCluster part d c q)
    · have hlt : q < q' := by
        refine Nat.lt_of_le_of_ne hq ?_
        rintro rfl
        exact hstop hread
      have hmul : clusterSize * (q + 1) ≤ clusterSize * q' := Nat.mul_le_mul_left _ hlt
      rw [Nat.mul_succ] at hmul
      rcases Nat.eq_zero_or_pos size with rfl | hsize
      · rw [readLoop_zero]
      rw [readLoop_turn hsize hread]
      split
      · rw [← nthCluster, ih hlt (by decide) (by rw [Nat.mul_succ]; omega),
          blit_of_not_mem _ _ (by omega)]
      · rw [show size - min (clusterSize - off) size = 0 by omega, readLoop_zero,
          blit_of_not_mem _ _ (by omega)]
    · rw [readLoop_of_not_readable hread]

/-- A byte that is asked for is stored if all clusters up to it are read: what the buffer holds
afterwards does not depend on what was there. -/
theorem readLoop_stores {m : ℕ} (hm : m < size) (hfuel : size ≤ fuel) (hoff : off < clusterSize)
    (hread : ∀ q', q ≤ q' → clusterSize * q' ≤ clusterSize * q + off + m →
      Readable part d (nthCluster part d c q')) (buf' : Buf) :
    (readLoop part d fuel size (nthCluster part d c q) off total tmp buf).2 (total + m) =
      (readLoop part d fuel size (nthCluster part d c q) off total tmp buf').2 (total + m) := by
  induction fuel generalizing size q off total m tmp buf buf' with
  | zero => omega
  | succ fuel ih =>
    have hsize : 0 < size := by omega
    have hfirst := hread q le_rfl (by omega)
    rw [readLoop_turn hsize hfirst, readLoop_turn hsize hfirst]
    rcases Nat.lt_or_ge m (min (clusterSize - off) size) with hlt | hge
    · -- stored in this turn, and not touched by the later ones
      rw [readLoop_frame (.inl (by omega)), readLoop_frame (.inl (by omega)),
        blit_of_mem _ _ (by omega) (by omega), blit_of_mem _ _ (by omega) (by omega)]
    · have hall : min (clusterSize - off) size = clusterSize - off := by omega
      have hplace : total + m = total + (clusterSize - off) + (m - (clusterSize - off)) := by omega
      have hmore : m - (clusterSize - off) < size - (clusterSize - off) := by omega
      rw [hall, if_pos (by omega), ← nthCluster, hplace]
      refine ih hmore (by omega) (by decide) ?_ _
      intro q' hq' hle
      refine hread q' (by omega) ?_
      rw [Nat.mul_succ] at hle
      omega

end Loop

/-! ## The end of the file -/

/-- Of a file of `s` bytes no byte behind its end is stored: the buffer is as it was from the number
of bytes on that the file has behind the offset. -/
def ReadsWithin (part : ℕ) (junk : ℕ → Buf) (d : Disk) (path : List UInt8) (offset size s : ℕ) :
    Prop :=
  ∀ buf j, s - offset ≤ j → (fat32ReadFileBytes part junk d path buf offset size).2 j = buf j

section Within

variable {part : ℕ} {junk : ℕ → Buf} {d : Disk} {path : List UInt8} {offset size s c S : ℕ}

section

variable (hcluster : findClusterFromPath part (fun n => junk (n + 2)) d path = c) (hc : c ≠ 0)
  (hsize : getFileSize part (junk 0) d path = S) (hoff : offset < S)
include hcluster hc hsize hoff

theorem read_eq_readLoop (size : ℕ) (buf : Buf) :
    fat32ReadFileBytes part junk d path buf offset size =
      readLoop part d (if S < u64 (offset + size) then S - offset else size)
        (if S < u64 (offset + size) then S - offset else size)
        (nthCluster part d c (offset / clusterSize)) (offset % clusterSize) 0 (junk 1) buf := by
  rw [fat32ReadFileBytes, hcluster, if_neg hc, hsize]
  rw [if_neg (Nat.not_le.mpr hoff), skipClusters_eq_nthCluster]

/-- The request is not clamped to the end of the file, and the chain goes on behind it. -/
theorem not_readsWithin
    (hlarge : s - offset < if S < u64 (offset + size) then S - offset else size)
    (hread : ∀ q, offset / clusterSize ≤ q → clusterSize * q ≤ max offset s →
      Readable part d (nthCluster part d c q)) :
    ¬ ReadsWithin part junk d path offset size s := by
  intro hwithin
  have hmod : offset % clusterSize < clusterSize := Nat.mod_lt _ (by decide)
  have hdiv := Nat.div_add_mod offset clusterSize
  have hzero := hwithin (fun _ => 0) (s - offset) le_rfl
  have hone := hwithin (fun _ => 1) (s - offset) le_rfl
  have hclusters : ∀ q, offset / clusterSize ≤ q → clusterSize * q ≤
      clusterSize * (offset / clusterSize) + offset % clusterSize + (s - offset) →
        Readable part d (nthCluster part d c q) := by
    intro q hq hle
    exact hread q hq (by omega)
  rw [read_eq_readLoop hcluster hc hsize hoff, ← Nat.zero_add (s - offset),
    readLoop_stores hlarge le_rfl hmod hclusters fun _ => 1,
    ← read_eq_readLoop hcluster hc hsize hoff, Nat.zero_add, hone] at hzero
  cases hzero

end

/-- **When no byte behind the end of a file is stored**, for every disk, path, request and size `s`:
no cluster is found, or the offset is not before the reported size, or no more than the rest of the
file is asked for, or the reported size is not too large and offset plus size, in 64 bits, is beyond
it, or a cluster up to the byte behind the end cannot be read. -/
theorem readsWithin_iff (part : ℕ) (junk : ℕ → Buf) (d : Disk) (path : List UInt8)
    (offset size s : ℕ) :
    ReadsWithin part junk d path offset size s ↔
      findClusterFromPath part (fun n => junk (n + 2)) d path = 0 ∨
      getFileSize part (junk 0) d path ≤ offset ∨
      size ≤ s - offset ∨
      (getFileSize part (junk 0) d path ≤ s ∧
        getFileSize part (junk 0) d path < u64 (offset + size)) ∨
      ∃ q, offset / clusterSize ≤ q ∧ clusterSize * q ≤ max offset s ∧
        ¬ Readable part d
          (nthCluster part d (findClusterFromPath part (fun n => junk (n + 2)) d path) q) := by
  generalize hcluster : findClusterFromPath part (fun n => junk (n + 2)) d path = c
  generalize hsize : getFileSize part (junk 0) d path = S
  have hmod : offset % clusterSize < clusterSize := Nat.mod_lt _ (by decide)
  have hdiv := Nat.div_add_mod offset clusterSize
  by_cases hc : c = 0
  · refine iff_of_true ?_ (.inl hc)
    intro buf j _
    rw [fat32ReadFileBytes, hcluster, if_pos hc]
  rcases Nat.lt_or_ge offset S with hoff | hoff
  · have hrun := read_eq_readLoop hcluster hc hsize hoff size
    have hsum : u64 (offset + size) ≤ offset + size := Nat.mod_le _ _
    constructor
    · intro hwithin
      by_contra hnot
      simp only [not_or, not_and, not_exists, not_not] at hnot
      obtain ⟨-, -, hask, hclamp, hread⟩ := hnot
      refine not_readsWithin hcluster hc hsize hoff ?_ hread hwithin
      split <;> omega
    · rintro (hzero | hle | hask | ⟨hle, hlt⟩ | ⟨q, hq, hqs, hstop⟩) buf j hj
      · exact absurd hzero hc
      · omega
      · rw [hrun]
        exact readLoop_frame (.inr (by split <;> omega))
      · rw [hrun, if_pos hlt]
        exact readLoop_frame (.inr (by omega))
      · rw [hrun]
        exact readLoop_stops hq hstop hmod (by rw [hdiv]; omega)
  · refine iff_of_true ?_ (.inr (.inl hoff))
    intro buf j _
    rw [fat32ReadFileBytes, hcluster, if_neg hc, hsize]
    rw [if_pos hoff]

end Within

def shortFileDisk : Disk :=
  smallDisk [0x0FFFFFF8, 0x0FFFFFFF, 0x0FFFFFF8, 0x0FFFFFF8]
    [withSize 2 (newEntry (formatName83 [0x41]) 0x20 3)]

/-- **A read runs behind the end of the file**: `offset` is 1 and `size` the largest value of 64
bits, so that their sum is 0 and the request is not clamped. -/
theorem read_overruns_file : OnDisk smallGeometry shortFileDisk ∧
    findClusterFromPath smallGeometry.part (fun _ _ => 0) shortFileDisk [slash, 0x41] = 3 ∧
    getFileSize smallGeometry.part (fun _ => 0) shortFileDisk [slash, 0x41] = 2 ∧
    ¬ ReadsWithin smallGeometry.part (fun _ _ => 0) shortFileDisk [slash, 0x41] 1
      (2 ^ 64 - 1) 2 := by
  refine (fun hcluster hsize => ⟨smallDisk_onDisk _ _, hcluster, hsize, ?_⟩) (by decide) (by decide)
  refine not_readsWithin (c := 3) (S := 2) hcluster (by decide) hsize (by decide) (by decide) ?_
  intro q _ hq
  obtain rfl : q = 0 := by
    unfold clusterSize at hq
    omega
  exact ⟨by decide, by decide, by decide⟩

end CarrotOS.Fat32
