import CarrotOS.Fs.Sharing

/-!
# When `fat32_stat` returns (`core/filesytem/fat32.h`)

The loop of `fat32_stat` over the clusters of the parent directory ends at an entry that matches or
at one without attributes, and in no other way. Behind the last cluster `get_next_cluster` returns
0, `read_cluster` leaves the buffer as it is, and the same buffer is scanned again; from then on the
loop stays at cluster 0. A parent that is not found is cluster 0 as well, and what is scanned is a
buffer that was never written.
-/

namespace CarrotOS.Fat32

open Word Bytes List

/-- The loop ends at the cluster for every contents of uninitialised memory: the cluster has an
entry without attributes or, for a name of at most 11 bytes, one that is compared as equal. -/
def EndsStat (part : ℕ) (d : Disk) (name : List UInt8) (c : ℕ) : Prop :=
  2 ≤ c ∧ ∃ i < slotsPerCluster, hasNoAttr (slot (readCluster part d c fun _ => 0).1 i) = true ∨
    name.length ≤ 11 ∧ hasStatName name (slot (readCluster part d c fun _ => 0).1 i) = true

section Scan

variable {g : Geometry} {d : Disk} {name : List UInt8} {b : Buf} {c : ℕ}

theorem readCluster_indep (h : OnDisk g d) (hc : 2 ≤ c) (b b' : Buf) :
    SameCluster (readCluster g.part d c b).1 (readCluster g.part d c b').1 := by
  have hloop : ∀ n, ∀ i < n * sectorSize,
      (range n).foldl (fun b i => blit b (i * sectorSize) sectorSize
        (sector d (u32 (firstSectorOfCluster g.part d c + i)))) b i =
      (range n).foldl (fun b i => blit b (i * sectorSize) sectorSize
        (sector d (u32 (firstSectorOfCluster g.part d c + i)))) b' i := by
    intro n
    induction n with
    | zero => simp
    | succ n ih =>
      intro i hi
      simp only [range_succ, foldl_append, foldl_cons, foldl_nil]
      rw [Nat.succ_mul] at hi
      by_cases hn : i < n * sectorSize
      · rw [blit, blit, ih i hn]
      · rw [blit_of_mem _ _ (by omega) hi, blit_of_mem _ _ (by omega) hi]
  intro i hi
  simp only [readCluster, if_neg (show ¬ c < 2 by omega), h.sectorsPerCluster, h.bytesPerSector]
  exact hloop 8 i hi

theorem statScan_eq_exhausted {junk : Buf} : statScan junk b name = .exhausted ↔
    ∀ i < slotsPerCluster, slotAttr b i ≠ 0 ∧
      ¬ (slotAttr b i ≠ 0xE5 ∧ slotAttr b i ≠ 0x0F ∧ statMatches junk b i name = true) := by
  simp [statScan, scan_eq_exhausted_iff]

theorem statScan_longNames (name : List UInt8) : statScan longNames longNames name = .exhausted :=
  statScan_eq_exhausted.mpr fun _ _ =>
    ⟨fun h => absurd (show (0x0F : UInt8) = 0 from h) (by decide), fun h => h.2.1 rfl⟩

theorem EndsStat.scan_ne (h : EndsStat g.part d name c) (hdisk : OnDisk g d) (junk b : Buf) :
    statScan junk (readCluster g.part d c b).1 name ≠ .exhausted := by
  obtain ⟨hc, i, hi, hend⟩ := h
  have hsame := readCluster_indep hdisk hc b fun _ => 0
  intro hscan
  rcases hend with hattr | ⟨hlen, hhit⟩
  · have hattr' := (statScan_eq_exhausted.mp hscan i hi).1
    rw [show slotAttr _ i = _ from hsame.slot hi 11 (by decide)] at hattr'
    exact hattr' (by simpa [hasNoAttr] using hattr)
  · rw [statScan_eq hlen, hsame.scanStat hlen, scanStat, scanBy, scan_eq_exhausted_iff] at hscan
    exact absurd hhit (by simp [(hscan i hi).2])

/-- Any other cluster is passed over if the memory is bad. -/
theorem scan_of_not_endsStat (h : ¬ EndsStat g.part d name c) (hdisk : OnDisk g d)
    (hb : statScan longNames b name = .exhausted) :
    statScan longNames (readCluster g.part d c b).1 name = .exhausted := by
  by_cases hc : c < 2
  · rwa [readCluster_of_lt _ _ hc]
  have hsame := readCluster_indep hdisk (by omega : 2 ≤ c) b fun _ => 0
  have hpass :
      ∀ i < slotsPerCluster, hasNoAttr (slot (readCluster g.part d c fun _ => 0).1 i) = false ∧
      (name.length ≤ 11 →
        hasStatName name (slot (readCluster g.part d c fun _ => 0).1 i) = false) := by
    intro i hi
    by_contra hnot
    refine h ⟨by omega, i, hi, ?_⟩
    simp only [not_and_or, Bool.not_eq_false, Classical.not_imp] at hnot
    exact hnot
  by_cases hlen : name.length ≤ 11
  · rw [statScan_eq hlen, hsame.scanStat hlen, scanStat, scanBy, scan_eq_exhausted_iff]
    exact fun i hi => ⟨(hpass i hi).1, (hpass i hi).2 hlen⟩
  · refine statScan_eq_exhausted.mpr fun i hi => ⟨?_, ?_⟩
    · rw [show slotAttr _ i = _ from hsame.slot hi 11 (by decide)]
      simpa [hasNoAttr] using (hpass i hi).1
    · rintro ⟨-, hne, hmatch⟩
      exact hne (attr_of_statMatches (by omega) hmatch)

end Scan

section Loop

variable {g : Geometry} {d : Disk} {name : List UInt8} {b : Buf} {c parent : ℕ}

theorem statLoop_returns (hdisk : OnDisk g d) (junk : Buf) {n : ℕ}
    (h : EndsStat g.part d name ((getNextCluster g.part d)^[n] c)) :
    (statLoop g.part junk d name parent (n + 1) c b).isSome := by
  induction n generalizing c b with
  | zero =>
    have hne := EndsStat.scan_ne h hdisk junk b
    rw [statLoop]
    split <;> simp_all
  | succ n ih =>
    rw [statLoop]
    split
    · rfl
    · rfl
    · exact ih h

theorem statLoop_eq_none (hdisk : OnDisk g d)
    (h : ∀ n, ¬ EndsStat g.part d name ((getNextCluster g.part d)^[n] c))
    (hb : statScan longNames b name = .exhausted) (fuel : ℕ) :
    statLoop g.part longNames d name parent fuel c b = none := by
  induction fuel generalizing c b with
  | zero => rfl
  | succ fuel ih =>
    have hscan : statScan longNames (readCluster g.part d c b).1 name = .exhausted :=
      scan_of_not_endsStat (h 0) hdisk hb
    rw [statLoop, hscan]
    exact ih (fun n => h (n + 1)) hscan

/-- **`fat32_stat` returns**, whatever is in uninitialised memory, exactly if the path is `/` or the
chain of the parent has a cluster that ends the loop. -/
theorem stat_returns_iff {path : List UInt8} (hdisk : OnDisk g d)
    (hhead : path.head? = some slash) :
    (∀ junk, ∃ fuel, (fat32Stat g.part fuel junk d path).isSome) ↔ path = [slash] ∨
      ∀ junk, ∃ n, EndsStat g.part d (lastName path)
        ((getNextCluster g.part d)^[n] (findClusterFromPath g.part junk d (parentPath path))) := by
  by_cases hroot : path = [slash]
  · simp [fat32Stat, hroot]
  simp only [fat32Stat, if_neg (not_not.mpr hhead), hroot, if_false, false_or]
  constructor
  · intro hreturns junk
    by_contra hnone
    obtain ⟨fuel, hfuel⟩ := hreturns fun n =>
      if n < 2 then longNames else junk (n - 2)
    simp [statLoop_eq_none hdisk (not_exists.mp hnone) (statScan_longNames _)] at hfuel
  · intro hends junk
    obtain ⟨n, hn⟩ := hends fun n => junk (n + 2)
    exact ⟨n + 1, statLoop_returns hdisk (junk 0) hn⟩

end Loop

/-- The root directory of the empty volume ends the loop. -/
theorem stat_returns_iff_emptyDisk : OnDisk smallGeometry emptyDisk ∧
    ∀ junk, ∃ fuel, (fat32Stat 0 fuel junk emptyDisk [slash, 0x41]).isSome := by
  have hdisk : OnDisk smallGeometry emptyDisk := smallDisk_onDisk _ _
  refine ⟨hdisk, (stat_returns_iff hdisk rfl).mpr (.inr fun junk => ?_)⟩
  have hroot : findClusterFromPath 0 junk emptyDisk (parentPath [slash, 0x41]) = 2 := by
    rw [show parentPath [slash, 0x41] = [slash] by decide, findClusterFromPath, if_neg (by decide),
      if_pos rfl]
    decide
  refine ⟨0, ?_⟩
  change EndsStat 0 emptyDisk _ (findClusterFromPath 0 junk emptyDisk _)
  rw [hroot]
  exact ⟨le_rfl, 0, by decide, .inl (by decide)⟩

/-- **A path whose parent does not exist** is looked up without end. -/
theorem stat_loops_without_parent :
    WellFormed smallGeometry (vol smallGeometry emptyDisk) ∧
      fat32Eoc ≤ (vol smallGeometry emptyDisk).fat 0 ∧
      ∃ junk, ∀ fuel, fat32Stat 0 fuel junk emptyDisk [slash, 0x41, slash, 0x42] = none := by
  refine ⟨emptyDisk_flat.wellFormed, by decide, fun _ => longNames, fun fuel => ?_⟩
  have hparent : findClusterFromPath 0 (fun _ => longNames) emptyDisk
      (parentPath [slash, 0x41, slash, 0x42]) = 0 := by decide
  have hnext : ∀ n, (getNextCluster 0 emptyDisk)^[n] 0 = 0 :=
    Function.iterate_fixed (by decide)
  rw [fat32Stat, if_neg (by decide), if_neg (by decide), hparent]
  refine statLoop_eq_none (g := smallGeometry) (smallDisk_onDisk _ _) (fun n h => ?_)
    (statScan_longNames _) fuel
  have hc : 2 ≤ (getNextCluster 0 emptyDisk)^[n] 0 := h.1
  rw [hnext] at hc
  cases hc

end CarrotOS.Fat32
