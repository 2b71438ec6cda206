import CarrotOS.Fs.Agree
import CarrotOS.Fs.Sharing

/-!
# Contents of files

What a file holds is the bytes of its chain, up to the size in its entry. `fat32_write_file_bytes`
walks the chain from the cluster of the offset on. At the end of the chain `get_next_cluster`
returns 0 and not a number from `FAT32_EOC` on, so `expand_file` is never called: the cluster 0
cannot be read, and the write ends with an error. A write that stays in the chain overlays the
contents. The size that it compares with and that reads obey is the one `find_dir_entry` finds, and
it is recorded in an entry that is looked up a third time.
-/

namespace CarrotOS.Fat32

open Word Bytes LinkTable List Vol

variable {p size : ℕ} {bytes : ℕ → UInt8}

/-! ## Chains by position -/

namespace Vol

/-- The cluster number `q` of the chain that starts at `c`. Behind the last one it is 0. -/
def nth (v : Vol) (c : ℕ) : ℕ → ℕ
  | 0 => c
  | q + 1 => v.follow (nth v c q)

/-- The byte `p` of the chain that starts at `c`. -/
def byteOf (v : Vol) (c p : ℕ) : UInt8 :=
  v.data (v.nth c (p / clusterSize)) (p % clusterSize)

/-- The chain that starts at `c` has a cluster for each of the first `size` bytes. -/
def Covers (v : Vol) (c size : ℕ) : Prop :=
  ∀ q, clusterSize * q < size → v.nth c q ≠ 0

/-- The chain that starts at `c` has `len` clusters. -/
structure Chain (n : ℕ) (v : Vol) (c len : ℕ) : Prop where
  range : ∀ q < len, 2 ≤ v.nth c q ∧ v.nth c q < n
  stop : v.nth c len = 0
  distinct : ∀ q < len, ∀ q' < len, v.nth c q = v.nth c q' → q = q'

section Chains

variable {v v' : Vol} {n c len q : ℕ} {l : List ℕ}

theorem nth_succ' (v : Vol) (c q : ℕ) : v.nth c (q + 1) = v.nth (v.follow c) q := by
  induction q with
  | zero => rfl
  | succ q ih => rw [nth, ih, nth]

theorem follow_congr (h : v'.fat = v.fat) (c : ℕ) : v'.follow c = v.follow c := by
  rw [follow, follow, h]

theorem nth_congr (h : v'.fat = v.fat) (c q : ℕ) : v'.nth c q = v.nth c q := by
  induction q with
  | zero => rfl
  | succ q ih => rw [nth, nth, ih, follow_congr h]

theorem getElem?_of_linked (h : Linked v.next c l) (hq : q < l.length) :
    l[q]? = some (v.nth c q) := by
  induction h generalizing q with
  | last _ =>
    obtain rfl : q = 0 := by simpa using hq
    rfl
  | cons hn _ ih =>
    cases q with
    | zero => rfl
    | succ q =>
      rw [getElem?_cons_succ, nth_succ', follow_of_next_some v hn]
      exact ih (by simpa using hq)

theorem nth_length_of_linked (h : Linked v.next c l) : v.nth c l.length = 0 := by
  induction h with
  | last hn => exact follow_of_next_none v hn
  | cons hn _ ih =>
    rw [length_cons, nth_succ', follow_of_next_some v hn]
    exact ih

theorem Chain.of_linked (h : Linked v.next c l) (hrange : ∀ x ∈ l, 2 ≤ x ∧ x < n) :
    Chain n v c l.length where
  range q hq := hrange _ (mem_of_getElem? (getElem?_of_linked h hq))
  stop := nth_length_of_linked h
  distinct q hq q' hq' heq := by
    have hsame : l[q]? = l[q']? := by
      rw [getElem?_of_linked h hq, getElem?_of_linked h hq', heq]
    exact (getElem?_inj hq h.nodup).mp hsame

theorem Chain.congr (h : Chain n v c len) (hfat : v'.fat = v.fat) : Chain n v' c len where
  range q hq := by
    rw [nth_congr hfat]
    exact h.range q hq
  stop := by rw [nth_congr hfat, h.stop]
  distinct q hq q' hq' heq := by
    rw [nth_congr hfat, nth_congr hfat] at heq
    exact h.distinct q hq q' hq' heq

theorem Chain.covers_iff (h : Chain n v c len) :
    v.Covers c size ↔ size ≤ clusterSize * len := by
  constructor
  · intro hcovers
    by_contra hlt
    exact hcovers len (by omega) h.stop
  · intro hle q hq
    have hlt : q < len := by
      unfold clusterSize at hle hq
      omega
    have := (h.range q hlt).1
    omega

theorem Chain.byteOf_setData (h : Chain n v c len) (hq : q < len) (b : Buf)
    (hp : p < clusterSize * len) : (v.setData (v.nth c q) b).byteOf c p =
      if p / clusterSize = q then b (p % clusterSize) else v.byteOf c p := by
  have hp' : p / clusterSize < len := Nat.div_lt_of_lt_mul hp
  have hmod : p % clusterSize < clusterSize := Nat.mod_lt _ (by decide)
  rw [byteOf, nth_congr (v.setData_fat _ b)]
  split
  · rename_i heq
    rw [heq, v.setData_data_self _ _ hmod]
  · rename_i hne
    rw [v.setData_data_of_ne fun heq => hne (h.distinct _ hp' q hq heq), byteOf]

theorem Chain.byteOf_overwrite (h : Chain n v c len) (hq : q < len) {off k : ℕ}
    (hk : off + k ≤ clusterSize) {tmp src : Buf}
    (htmp : ∀ j < clusterSize, tmp j = blit (v.data (v.nth c q)) off k src j)
    (hp : p < clusterSize * len) :
    (v.setData (v.nth c q) tmp).byteOf c p = blit (v.byteOf c) (clusterSize * q + off) k src p := by
  have hmod : p % clusterSize < clusterSize := Nat.mod_lt _ (by decide)
  have hdiv := Nat.div_add_mod p clusterSize
  rw [h.byteOf_setData hq tmp hp]
  split
  · rename_i heq
    rw [heq] at hdiv
    rw [htmp _ hmod]
    by_cases hin : off ≤ p % clusterSize ∧ p % clusterSize < off + k
    · rw [blit_of_mem _ _ hin.1 hin.2, blit_of_mem _ _ (by omega) (by omega)]
      congr 1
      omega
    · rw [blit_of_not_mem _ _ (by omega), blit_of_not_mem _ _ (by omega), byteOf, heq]
  · rename_i hne
    rw [blit_of_not_mem]
    unfold clusterSize at *
    omega

end Chains

end Vol

/-! ## The loops -/

namespace Rep

variable {g : Geometry} {m : Prop} {d : Disk} {v : Vol} {c len q off size total fuel : ℕ}

theorem skipClusters_eq (h : Rep g m d v) {n : ℕ} (hrange : ∀ j < n, v.nth c j < g.clusters) :
    skipClusters g.part d n c = some (v.nth c n) := by
  induction n generalizing c with
  | zero => rfl
  | succ n ih =>
    have hc : c < g.clusters := hrange 0 (Nat.succ_pos n)
    rw [skipClusters, h.getNextCluster_eq hc, if_neg (Nat.not_le.mpr (v.follow_lt c)), ih,
      nth_succ']
    intro j hj
    rw [← nth_succ']
    exact hrange (j + 1) (by omega)

theorem exists_next_turn (v : Vol) (c : ℕ) (hoff : off < clusterSize)
    (hfit : clusterSize * q + off + size ≤ clusterSize * len) :
    ∃ q1, (if 0 < size - min (clusterSize - off) size then v.nth c (q + 1) else v.nth c q) =
        v.nth c q1 ∧
      (clusterSize * q + off + min (clusterSize - off) size = clusterSize * q1 + 0 ∨
        size - min (clusterSize - off) size = 0) ∧
      clusterSize * q1 + 0 + (size - min (clusterSize - off) size) ≤ clusterSize * len := by
  split
  · exact ⟨q + 1, rfl, .inl (by rw [Nat.mul_succ]; omega), by rw [Nat.mul_succ]; omega⟩
  · exact ⟨q, rfl, .inr (by omega), by omega⟩

section

variable (h : Rep g m d v) (hc : v.Chain g.clusters c len)
include h hc

/-- One turn of the loop of `fat32_write_file_bytes` in a cluster of the chain. -/
theorem writeLoop_turn (hq : q < len) (hsize : 0 < size) (buf : Buf) (off total fuel : ℕ) :
    ∃ d1 tmp,
        (∀ j < clusterSize, tmp j = blit (v.data (v.nth c q)) off (min (clusterSize - off) size)
        (fun k => buf (total + k)) j) ∧
      Rep g m d1 (v.setData (v.nth c q) tmp) ∧
      writeLoop g.part buf (fuel + 1) d size (v.nth c q) off total =
        writeLoop g.part buf fuel d1 (size - min (clusterSize - off) size)
          (if 0 < size - min (clusterSize - off) size then v.nth c (q + 1) else v.nth c q) 0
          (total + min (clusterSize - off) size) := by
  obtain ⟨hc2, hcn⟩ := hc.range q hq
  have hle := g.clusters_le
  obtain ⟨hread, hbytes⟩ := h.readCluster_eq hc2 hcn fun _ => 0
  let tmp := blit (readCluster g.part d (v.nth c q) fun _ => 0).1 off (min (clusterSize - off) size)
    fun k => buf (total + k)
  obtain ⟨hok, hw⟩ := h.writeCluster_rep hc2 hcn tmp
  refine ⟨(writeCluster g.part d (v.nth c q) tmp).1, tmp, ?_, hw, ?_⟩
  · intro j hj
    unfold tmp blit
    rw [hbytes j hj]
  · rw [writeLoop, if_pos ⟨hsize, by omega⟩]
    dsimp only
    rw [if_neg (not_not.mpr hread), if_neg (not_not.mpr hok)]
    split
    · rw [hw.getNextCluster_eq hcn, if_neg (Nat.not_le.mpr (follow_lt _ _)), nth,
        follow_congr (v.setData_fat _ _)]
    · rfl

/-- **The loop of `fat32_write_file_bytes` inside the chain** overwrites a range of its bytes. -/
theorem writeLoop_fits (hoff : off < clusterSize) (hfuel : size ≤ fuel)
    (hfit : clusterSize * q + off + size ≤ clusterSize * len) (buf : Buf) (total : ℕ) :
    ∃ d' v', writeLoop g.part buf fuel d size (v.nth c q) off total = (d', total + size, none) ∧
      Rep g m d' v' ∧ v'.fat = v.fat ∧
      (∀ k, (∀ q' < len, k ≠ v.nth c q') → v'.data k = v.data k) ∧
      ∀ p < clusterSize * len, v'.byteOf c p =
        blit (v.byteOf c) (clusterSize * q + off) size (fun j => buf (total + j)) p := by
  have hnothing : ∀ (b : Buf) (a p : ℕ) (src : Buf), blit b a 0 src p = b p := fun b a p src =>
    blit_of_not_mem _ _ (by omega)
  induction fuel generalizing d v q off size total with
  | zero =>
    obtain rfl : size = 0 := by omega
    exact ⟨d, v, rfl, h, rfl, fun _ _ => rfl, fun p _ => (hnothing _ _ _ _).symm⟩
  | succ fuel ih =>
    rcases Nat.eq_zero_or_pos size with rfl | hsize
    · refine ⟨d, v, ?_, h, rfl, fun _ _ => rfl, fun p _ => (hnothing _ _ _ _).symm⟩
      rw [writeLoop, if_neg (by omega)]
      rfl
    have hq : q < len := by
      unfold clusterSize at *
      omega
    obtain ⟨d1, tmp, htmp, h1, hrun⟩ := h.writeLoop_turn hc hq hsize buf off total fuel
    have hfat : (v.setData (v.nth c q) tmp).fat = v.fat := v.setData_fat _ _
    have hbytes := fun p => hc.byteOf_overwrite hq (p := p)
      (show off + min (clusterSize - off) size ≤ clusterSize by omega) htmp
    obtain ⟨q1, hq1, hstart, hfit1⟩ := exists_next_turn v c hoff hfit
    have hk : min (clusterSize - off) size ≤ size ∧ 0 < min (clusterSize - off) size := by omega
    generalize min (clusterSize - off) size = k at *
    have hzero : 0 < clusterSize := by decide
    have hfuel1 : size - k ≤ fuel := by omega
    obtain ⟨d', v', hloop, hr, hfat', hdata', hbytes'⟩ :=
      ih h1 (hc.congr hfat) hzero hfuel1 hfit1 (total + k)
    rw [nth_congr hfat] at hloop
    refine ⟨d', v', ?_, hr, hfat'.trans hfat, fun x hx => ?_, fun p hp => ?_⟩
    · rw [hrun, hq1, hloop, show total + k + (size - k) = total + size by omega]
    · rw [hdata' x fun q' hq' => by rw [nth_congr hfat]; exact hx q' hq']
      exact v.setData_data_of_ne (hx q hq) tmp
    · rw [hbytes' p hp]
      rcases hstart with hstart | hstart
      · rw [← hstart, blit_congr _ _ (hbytes p hp), show size = k + (size - k) by omega,
          ← blit_append]
        simp only [Nat.add_assoc, Nat.add_sub_cancel_left]
      · rw [hstart, hnothing, hbytes p hp, show k = size by omega]

/-- **The loop beyond the end of the chain** fails: the cluster 0 cannot be read. -/
theorem writeLoop_short (hoff : off < clusterSize) (hfuel : size ≤ fuel)
    (hstart : clusterSize * q + off ≤ clusterSize * len)
    (hshort : clusterSize * len < clusterSize * q + off + size) (buf : Buf) (total : ℕ) :
    ∃ d' w, writeLoop g.part buf fuel d size (v.nth c q) off total = (d', w, some (-4)) := by
  induction fuel generalizing d v q off size total with
  | zero => omega
  | succ fuel ih =>
    rcases Nat.lt_or_ge q len with hq | hq
    · have hsize : 0 < size := by omega
      obtain ⟨d1, tmp, -, h1, hrun⟩ := h.writeLoop_turn hc hq hsize buf off total fuel
      have hmore : min (clusterSize - off) size = clusterSize - off ∧ clusterSize - off < size := by
        unfold clusterSize at *
        omega
      rw [hmore.1, if_pos (by omega)] at hrun
      have hfat : (v.setData (v.nth c q) tmp).fat = v.fat := v.setData_fat _ _
      have hzero : 0 < clusterSize := by decide
      have hfuel1 : size - (clusterSize - off) ≤ fuel := by omega
      have hstart1 : clusterSize * (q + 1) + 0 ≤ clusterSize * len := by
        unfold clusterSize at *
        omega
      have hshort1 : clusterSize * len <
          clusterSize * (q + 1) + 0 + (size - (clusterSize - off)) := by
        rw [Nat.mul_succ]
        omega
      obtain ⟨d', w, hloop⟩ := ih h1 (hc.congr hfat) hzero hfuel1 hstart1 hshort1
        (total + (clusterSize - off))
      rw [nth_congr hfat] at hloop
      exact ⟨d', w, hrun.trans hloop⟩
    · obtain rfl : q = len := by
        unfold clusterSize at *
        omega
      refine ⟨d, total, ?_⟩
      rw [hc.stop, writeLoop, if_pos ⟨by omega, by decide⟩]
      dsimp only
      rw [readCluster_of_lt _ _ (by decide), if_pos (by decide)]

end

/-- **The loop of `fat32_read_file_bytes`** copies bytes of the chain. -/
theorem readLoop_spec (h : Rep g m d v)
    (hrange : ∀ q < len, 2 ≤ v.nth c q ∧ v.nth c q < g.clusters) (hoff : off < clusterSize)
    (hfuel : size ≤ fuel) (hfit : clusterSize * q + off + size ≤ clusterSize * len) (total : ℕ)
    (tmp buf : Buf) :
    readLoop g.part d fuel size (v.nth c q) off total tmp buf =
      (((total + size : ℕ) : ℤ),
        blit buf total size fun j => v.byteOf c (clusterSize * q + off + j)) := by
  have hnothing : ∀ (b : Buf) (a : ℕ) (src : Buf), blit b a 0 src = b := fun b a src =>
    funext fun p => blit_of_not_mem _ _ (by omega)
  induction fuel generalizing q off size total tmp buf with
  | zero =>
    obtain rfl : size = 0 := by omega
    rw [hnothing]
    rfl
  | succ fuel ih =>
    rcases Nat.eq_zero_or_pos size with rfl | hsize
    · rw [readLoop, if_neg (by omega), hnothing]
      rfl
    have hq : q < len := by
      unfold clusterSize at *
      omega
    obtain ⟨hc2, hcn⟩ := hrange q hq
    have hle := g.clusters_le
    obtain ⟨hread, hbytes⟩ := h.readCluster_eq hc2 hcn tmp
    rw [readLoop, if_pos ⟨hsize, by omega⟩]
    dsimp only
    rw [if_neg (not_not.mpr hread), h.getNextCluster_eq hcn]
    obtain ⟨q1, hq1, hstart, hfit1⟩ := exists_next_turn v c hoff hfit
    rw [nth] at hq1
    have hk : min (clusterSize - off) size ≤ size ∧
      off + min (clusterSize - off) size ≤ clusterSize ∧
      0 < min (clusterSize - off) size := by omega
    generalize min (clusterSize - off) size = k at *
    have hzero : 0 < clusterSize := by decide
    have hfuel1 : size - k ≤ fuel := by omega
    rw [hq1, ih hzero hfuel1 hfit1, show total + k + (size - k) = total + size by omega]
    refine congrArg (_, ·) ?_
    -- what is copied in this turn
    have hturn : blit buf total k (fun j => (readCluster g.part d (v.nth c q) tmp).1 (off + j)) =
        blit buf total k fun j => v.byteOf c (clusterSize * q + off + j) := by
      funext p
      by_cases hin : total ≤ p ∧ p < total + k
      · rw [blit_of_mem _ _ hin.1 hin.2, blit_of_mem _ _ hin.1 hin.2, hbytes _ (by omega), byteOf]
        congr 1
        · congr 1
          unfold clusterSize at *
          omega
        · unfold clusterSize at *
          omega
      · rw [blit_of_not_mem _ _ (by omega), blit_of_not_mem _ _ (by omega)]
    rw [hturn]
    rcases hstart with hstart | hstart
    · rw [← hstart, show size = k + (size - k) by omega, ← blit_append]
      simp only [Nat.add_assoc, Nat.add_sub_cancel_left]
    · rw [hstart, hnothing, show k = size by omega]

end Rep

/-! ## The entry of a path -/

/-- The path leads through directories, for `find_dir_entry` too, to a file with a chain. -/
structure Vol.FileAt (root : ℕ) (v : Vol) (ts : List (List UInt8)) (t : List UInt8) (k i : ℕ) : Prop
    extends v.PathTo root ts t k i where
  only : v.DirsOnly ts root
  file : ¬ IsDir (v.slot k i)
  chain : getEntryCluster (v.slot k i) ≠ 0

/-- The sizes of all files are within their chains. -/
def SizesFit (g : Geometry) (v : Vol) : Prop :=
  ∀ k i, v.Entry g.root k i → ¬ IsDir (v.slot k i) →
    v.Covers (getEntryCluster (v.slot k i)) (fileSize (v.slot k i))

section Entries

variable {g : Geometry} {m : Prop} {d : Disk} {v v' : Vol} {S : Set ℕ} {L : Owner → List ℕ}
  {c k i : ℕ} {t : List UInt8} {ts : List (List UInt8)}

theorem Vol.FileAt.owner (hf : v.FileAt g.root ts t k i) (h : Tidy g v S L) :
    (Owner.slot k i).In S v :=
  Tidy.in_of_scanToken (hf.dirs.mem h h.root_mem) hf.found

theorem Vol.FileAt.congr (hf : v.FileAt g.root ts t k i) (h : Tidy g v S L)
    (hsame : Vol.SameDirs S v v')
    (hcluster : getEntryCluster (v'.slot k i) = getEntryCluster (v.slot k i)) :
    v'.FileAt g.root ts t k i where
  comps := hf.comps
  dirs := hf.dirs.congr h h.root_mem hsame
  found := (hsame.scanToken (hf.owner h).1 _).trans hf.found
  only := (h.entryOf_congr (t := t) hsame h.root_mem hf.only).2
  file := by
    rw [IsDir, (hsame k (hf.owner h).1 i (hf.owner h).2.1).1 11 (by decide)]
    exact hf.file
  chain := by
    rw [hcluster]
    exact hf.chain

theorem Tidy.chain_of_file (h : Tidy g v S L) (hin : (Owner.slot k i).In S v)
    (hne : getEntryCluster (v.slot k i) ≠ 0) :
    v.Chain g.clusters (getEntryCluster (v.slot k i)) (L (.slot k i)).length ∧
      ∀ q < (L (.slot k i)).length, v.nth (getEntryCluster (v.slot k i)) q ∈ L (.slot k i) := by
  have hlinked := h.linked_slot hin hne
  exact ⟨.of_linked hlinked (h.range _ hin), fun q hq =>
    mem_of_getElem? (getElem?_of_linked hlinked hq)⟩

end Entries

/-! ## Writing and reading a file -/

/-- What a write does to the volume: the chain that starts at `c` has other bytes, and the entry in
the slot `i` of the cluster `k` another size. -/
structure Vol.Overwritten (v v' : Vol) (k i c len size : ℕ) (bytes : ℕ → UInt8) : Prop where
  fat : v'.fat = v.fat
  bytes : ∀ p < clusterSize * len, v'.byteOf c p = bytes p
  entry : ∀ j < 28, v'.slot k i j = v.slot k i j
  size : fileSize (v'.slot k i) = size
  slots : ∀ x, (∀ q < len, x ≠ v.nth c q) → ∀ j < slotsPerCluster, (x, j) ≠ (k, i) →
    SameEntry (v'.slot x j) (v.slot x j)
  data : ∀ x, (∀ q < len, x ≠ v.nth c q) → x ≠ k → v'.data x = v.data x

section WriteRead

variable {g : Geometry} {m : Prop} {d : Disk} {v v' : Vol} {S : Set ℕ} {L : Owner → List ℕ}
  {k i c len n offset : ℕ} {t : List UInt8} {ts : List (List UInt8)} {env : FatEnv} {buf : Buf}

theorem withSize_size (x : ℕ) (e : Buf) : fileSize (withSize x e) = x % 2 ^ 32 := by
  rw [fileSize, word, show (2 : ℕ) ^ 32 = 256 ^ 4 by norm_num, ← leNat_leByte]
  refine leNat_congr fun j hj => ?_
  rw [withSize, blit_of_mem _ _ (by omega) (by omega), Nat.add_sub_cancel_left]

theorem fileSize_lt (e : Buf) : fileSize e < 2 ^ 32 := by
  rw [fileSize, word, show (2 : ℕ) ^ 32 = 256 ^ 4 by norm_num]
  exact leNat_lt 4 _

section

variable {old : ℕ} (h : v.Overwritten v' k i c len old bytes)
include h

theorem Vol.Overwritten.cluster : getEntryCluster (v'.slot k i) = getEntryCluster (v.slot k i) :=
  cluster_congr h.entry

theorem Vol.Overwritten.setSize
    (hi : i < slotsPerCluster) (hk : ∀ q < len, k ≠ v.nth c q) (hsize : size < 2 ^ 32) :
    v.Overwritten (v'.setSlot k i (withSize size (v'.slot k i))) k i c len size bytes where
  fat := h.fat
  bytes p hp := by
    have hne : (v'.setSlot k i (withSize size (v'.slot k i))).nth c (p / clusterSize) ≠ k := by
      rw [nth_congr ((v'.setSlot_fat ..).trans h.fat)]
      exact (hk _ (Nat.div_lt_of_lt_mul hp)).symm
    rw [byteOf, v'.setSlot_data_of_ne hne, nth_congr (v'.setSlot_fat ..), ← byteOf]
    exact h.bytes p hp
  entry j hj := by
    rw [v'.setSlot_slot_self k hi _ j (by omega), withSize_of_lt _ _ hj]
    exact h.entry j hj
  size := by rw [(v'.setSlot_slot_self k hi _).size, withSize_size, Nat.mod_eq_of_lt hsize]
  slots x hx j hj hne y hy := by
    rw [v'.setSlot_slot_of_ne hj hne y hy]
    exact h.slots x hx j hj hne y hy
  data x hx hne := by
    rw [v'.setSlot_data_of_ne hne]
    exact h.data x hx hne

end

section

variable (hr : Rep g m d v) (h : Tidy g v S L) (hf : v.FileAt g.root ts t k i)
  (hc : v.Chain g.clusters (getEntryCluster (v.slot k i)) len)
include hr h hf hc

/-- **A write inside the chain**: the loop overlays the bytes of the chain, unless the size that
`find_dir_entry` finds is below the offset; the new size is recorded if that size is smaller. -/
theorem write_eq (hS : ∀ q < len, v.nth (getEntryCluster (v.slot k i)) q ∉ S)
    (hfit : offset + n ≤ clusterSize * len) (hlt : offset + n < 2 ^ 32) (env : FatEnv) (buf : Buf) :
    ∃ d' v', Rep g m d' v' ∧ Tidy g v' S L ∧ (∀ x ∈ S, v'.data x = v.data x) ∧
      v.Overwritten v' k i (getEntryCluster (v.slot k i)) len (fileSize (v.slot k i))
        (blit (v.byteOf (getEntryCluster (v.slot k i))) offset n buf) ∧
      fat32WriteFileBytes g.part env d (pathOf (ts ++ [t])) buf offset n =
        if (v.entryOf t ts g.root).size v (env.junk 3 0) < offset then some (d, -2)
        else if (v.entryOf t ts g.root).size v (env.junk 3 0) < offset + n then
          (setFileSize g.part { env with junk := fun n => env.junk (n + 4) } d'
            (pathOf (ts ++ [t])) (offset + n)).map fun d => (d, 0)
        else some (d', 0) := by
  have hkc : ∀ q < len, k ≠ v.nth (getEntryCluster (v.slot k i)) q := fun q hq =>
    ne_of_mem_of_not_mem (hf.owner h).1 (hS q hq)
  have hmod : offset % clusterSize < clusterSize := Nat.mod_lt _ (by decide)
  have hdiv := Nat.div_add_mod offset clusterSize
  obtain ⟨d1, v1, hloop, hr1, hfat, hdata, hbytes⟩ := hr.writeLoop_fits hc hmod (Nat.le_refl n)
    (by rw [hdiv]; exact hfit) buf 0
  rw [hdiv] at hbytes
  simp only [Nat.zero_add] at hloop hbytes
  have hdata' : ∀ x ∈ S, v1.data x = v.data x := fun x hx =>
    hdata x fun q hq => ne_of_mem_of_not_mem hx (hS q hq)
  have hslot : ∀ x, (∀ q < len, x ≠ v.nth (getEntryCluster (v.slot k i)) q) →
      v1.slot x = v.slot x := by
    intro x hx
    unfold Vol.slot
    rw [hdata x hx]
  refine ⟨d1, v1, hr1, h.write hfat hdata', hdata', ⟨hfat, hbytes, fun j _ => ?_, ?_,
    fun x hx j _ _ y _ => ?_, fun x hx _ => hdata x hx⟩, ?_⟩
  · rw [hslot k hkc]
  · rw [hslot k hkc]
  · rw [hslot x hx]
  · have hskip := hr.skipClusters_eq (c := getEntryCluster (v.slot k i)) (n := offset / clusterSize)
      fun j hj => (hc.range j (by unfold clusterSize at *; omega)).2
    rw [fat32WriteFileBytes, hf.toPathTo.find hr h, if_neg hf.chain, writeAt,
      hr.getFileSize_eq h hf.comps hf.only, hskip]
    dsimp only
    rw [hloop]
    dsimp only
    rw [u64_of_lt (show offset + n < 2 ^ 64 by omega), u32_of_lt hlt]

/-- **Reading from the start** returns the bytes of the chain, up to the size that `find_dir_entry`
finds. -/
theorem read_eq {size : ℕ} (hsize : size ≤ clusterSize * len) (hlt : size < 2 ^ 32) (junk : ℕ → Buf)
    (out : Buf) :
    fat32ReadFileBytes g.part junk d (pathOf (ts ++ [t])) out 0 size =
      (((min ((v.entryOf t ts g.root).size v (junk 0)) size : ℕ) : ℤ),
        blit out 0 (min ((v.entryOf t ts g.root).size v (junk 0)) size)
          (v.byteOf (getEntryCluster (v.slot k i)))) := by
  rw [fat32ReadFileBytes, hf.toPathTo.find hr h, if_neg hf.chain,
    hr.getFileSize_eq h hf.comps hf.only]
  dsimp only
  generalize (v.entryOf t ts g.root).size v (junk 0) = z
  rw [Nat.zero_add, u64_of_lt (by omega), Nat.sub_zero, Nat.zero_div, skipClusters, Nat.zero_mod,
    show (if z < size then z else size) = min z size by split <;> omega]
  by_cases hzero : z = 0
  · subst hzero
    rw [if_pos (Nat.le_refl 0), Nat.zero_min]
    refine congrArg (_, ·) (funext fun p => ?_)
    rw [blit_of_not_mem _ _ (by omega)]
  · have hread :=
      hr.readLoop_spec hc.range (q := 0) (show 0 < clusterSize by decide) (Nat.le_refl (min z size))
      (by omega) 0 (junk 1) out
    rw [if_neg (by omega)]
    simp only [Nat.mul_zero, Nat.zero_add] at hread
    exact hread

end

/-- The contents of the other files are the same. -/
theorem Vol.Overwritten.other {k' i' : ℕ}
    (hover : v.Overwritten v' k i (getEntryCluster (v.slot k i)) (L (.slot k i)).length size bytes)
    (h : Tidy g v S L) (hin : (Owner.slot k i).In S v) (hfile : ¬ IsDir (v.slot k i))
    (hne : getEntryCluster (v.slot k i) ≠ 0) (hin' : (Owner.slot k' i').In S v)
    (hfile' : ¬ IsDir (v.slot k' i')) (hother : (k', i') ≠ (k, i))
    (hcovers : v.Covers (getEntryCluster (v.slot k' i')) (fileSize (v.slot k' i'))) :
    SameEntry (v'.slot k' i') (v.slot k' i') ∧ ∀ p < fileSize (v.slot k' i'),
      v'.byteOf (getEntryCluster (v.slot k' i')) p =
        v.byteOf (getEntryCluster (v.slot k' i')) p := by
  obtain ⟨-, hmem⟩ := h.chain_of_file hin hne
  have hdir : ∀ x ∈ S, ∀ q < (L (.slot k i)).length,
      x ≠ v.nth (getEntryCluster (v.slot k i)) q := fun x hx q hq =>
    ne_of_mem_of_not_mem hx (h.files _ hin hfile _ (hmem q hq))
  refine ⟨hover.slots k' (hdir k' hin'.1) i' hin'.2.1 hother, fun p hp => ?_⟩
  have hne' : getEntryCluster (v.slot k' i') ≠ 0 := by
    intro hzero
    exact hcovers 0 (by omega) hzero
  obtain ⟨hchain', hmem'⟩ := h.chain_of_file hin' hne'
  have hq : p / clusterSize < (L (.slot k' i')).length :=
    Nat.div_lt_of_lt_mul (hp.trans_le (hchain'.covers_iff.mp hcovers))
  rw [byteOf, byteOf, nth_congr hover.fat, hover.data]
  · intro q hq' heq
    -- a cluster of both chains
    refine h.family.disjoint _ _ hin hin' (fun howner => ?_) _ (hmem q hq') (heq ▸ hmem' _ hq)
    obtain ⟨rfl, rfl⟩ := Owner.slot.inj howner
    exact hother rfl
  · rintro heq
    exact h.files _ hin' hfile' _ (hmem' _ hq) (heq ▸ hin.1)

end WriteRead

/-- A write of `n` bytes at `offset` to the file in the slot `i` of the cluster `k` succeeds,
records the larger of the old size and its end, the file reads as the old contents overlaid with the
buffer, and the other files are the same. -/
def WriteReads (g : Geometry) (d : Disk) (env : FatEnv) (path : List UInt8) (k i : ℕ) (buf : Buf)
    (offset n : ℕ) : Prop :=
  ∃ d', fat32WriteFileBytes g.part env d path buf offset n = some (d', 0) ∧
    fileSize ((vol g d').slot k i) = max (fileSize ((vol g d).slot k i)) (offset + n) ∧
    (∀ junk out, ∃ out', fat32ReadFileBytes g.part junk d' path out 0
        (max (fileSize ((vol g d).slot k i)) (offset + n)) =
          (((max (fileSize ((vol g d).slot k i)) (offset + n) : ℕ) : ℤ), out') ∧
      ∀ p < max (fileSize ((vol g d).slot k i)) (offset + n),
        out' p = blit ((vol g d).byteOf (getEntryCluster ((vol g d).slot k i))) offset n buf p) ∧
    ∀ k' i', (vol g d).Entry g.root k' i' → ¬ IsDir ((vol g d).slot k' i') → (k', i') ≠ (k, i) →
      SameEntry ((vol g d').slot k' i') ((vol g d).slot k' i') ∧
      ∀ p < fileSize ((vol g d).slot k' i'),
        (vol g d').byteOf (getEntryCluster ((vol g d).slot k' i')) p =
          (vol g d).byteOf (getEntryCluster ((vol g d).slot k' i')) p

/-- What a write of `n` bytes at `offset` needs: it ends inside the chain. If it ends inside the
file, `find_dir_entry` does not find a directory of the path, or it finds an entry with at least the
size of the file. If it extends the file, `find_dir_entry` and `set_file_size` find the file
itself. -/
structure Vol.Writable (root : ℕ) (v : Vol) (ts : List (List UInt8)) (t : List UInt8)
    (k i offset n : ℕ) : Prop where
  covers : v.Covers (getEntryCluster (v.slot k i)) (offset + n)
  inside : offset + n ≤ fileSize (v.slot k i) → v.entryOf t ts root = .noDirectory ∨
    ∃ k' i', v.entryOf t ts root = .found k' i' ∧
      fileSize (v.slot k i) ≤ fileSize (v.slot k' i')
  grows : fileSize (v.slot k i) < offset + n → v.entryOf t ts root = .found k i ∧ t.length ≤ 11 ∧
    (∃ j, scanStat t (v.data k) = .hit j) ∧ scanEntry 0x20 (formatName83 t) (v.data k) = .hit i

section Main

variable {g : Geometry} {m : Prop} {d d' : Disk} {v v' : Vol} {S : Set ℕ} {L : Owner → List ℕ}
  {env : FatEnv} {t : List UInt8} {ts : List (List UInt8)} {k i len offset n : ℕ} {buf : Buf}

theorem Vol.Overwritten.sameDirs {c : ℕ} (hover : v.Overwritten v' k i c len size bytes)
    (hS : ∀ q < len, v.nth c q ∉ S) (hfile : ¬ IsDir (v.slot k i)) : Vol.SameDirs S v v' := by
  intro x hx j hj
  have hx' := fun q hq => ne_of_mem_of_not_mem hx (hS q hq)
  by_cases hne : (x, j) = (k, i)
  · cases hne
    exact ⟨fun b hb => hover.entry b (by omega), fun hdir => absurd hdir hfile⟩
  · have hslot := hover.slots x hx' j hj hne
    exact ⟨fun b hb => hslot b (by omega), fun _ => hslot.cluster⟩

theorem live_of_scanEntry (hp : v.PathTo g.root ts t k i) {attr : UInt8} {b : Buf} {j : ℕ}
    (hentry : scanEntry attr (formatName83 t) b = .hit j) (hattr : attr ≠ 0x0F) :
    Live (Fat32.slot b j) := by
  obtain ⟨-, hlive, -⟩ := live_of_scanToken hp.found
  obtain ⟨-, hattr', hname⟩ := scanEntry_hit hentry
  have hfirst := hp.first hname
  rw [Live, hfirst, hattr']
  exact ⟨hlive.1, hlive.2.1, hlive.2.2.1, hattr⟩

/-- Another size in an entry of a file. -/
theorem Vol.sameDirs_setSize (hi : i < slotsPerCluster) (size : ℕ) {v' : Vol}
    (hv' : v' = v.setSlot k i (withSize size (v.slot k i))) :
    Vol.SameDirs S v v' ∧ ∀ x, ∀ j < slotsPerCluster,
      getEntryCluster (v'.slot x j) = getEntryCluster (v.slot x j) := by
  have hbytes : ∀ x, ∀ j < slotsPerCluster, ∀ b < 28, v'.slot x j b = v.slot x j b := by
    intro x j hj b hb
    rw [hv']
    by_cases hne : (x, j) = (k, i)
    · cases hne
      rw [v.setSlot_slot_self k hi _ b (by omega), withSize_of_lt _ _ hb]
    · exact v.setSlot_slot_of_ne hj hne b (by omega)
  refine ⟨fun x _ j hj => ⟨fun b hb => hbytes x j hj b (by omega), fun _ => ?_⟩, fun x j hj => ?_⟩
  · exact cluster_congr (hbytes x j hj)
  · exact cluster_congr (hbytes x j hj)

/-- What a write leaves, whatever is in uninitialised memory: the directories are the same, or the
size changes in one entry of a file, which is the first one that `set_file_size` meets. -/
theorem write_longNames (hr : Rep g m d v) (h : Tidy g v S L) (hf : v.FileAt g.root ts t k i)
    (hc : v.Chain g.clusters (getEntryCluster (v.slot k i)) len)
    (hS : ∀ q < len, v.nth (getEntryCluster (v.slot k i)) q ∉ S)
    (hfit : offset + n ≤ clusterSize * len) (hlt : offset + n < 2 ^ 32) {fuel : ℕ}
    (hrun : fat32WriteFileBytes g.part ⟨fuel, fun _ _ => longNames⟩ d (pathOf (ts ++ [t])) buf
      offset n = some (d', 0)) :
    ∃ v', Rep g m d' v' ∧ Tidy g v' S L ∧ Vol.SameDirs S v v' ∧ v'.fat = v.fat ∧
      getEntryCluster (v'.slot k i) = getEntryCluster (v.slot k i) ∧
      ((∀ x ∈ S, v'.data x = v.data x) ∨
        (v.entryOf t ts g.root).size v longNames < offset + n ∧ t.length ≤ 11 ∧
        (scanStat t (v.data k) = .exhausted ∨ ∃ j, scanStat t (v.data k) = .hit j) ∧
        ∃ k' i', (Owner.slot k' i').In S v ∧ ¬ IsDir (v.slot k' i') ∧
          scanEntry 0x20 (formatName83 t) (v.data k') = .hit i' ∧
          ∀ x ∈ S, ∀ j < slotsPerCluster, (x, j) ≠ (k', i') →
            fileSize (v'.slot x j) = fileSize (v.slot x j)) := by
  have hk := (hf.owner h).1
  obtain ⟨d1, v1, hr1, h1, hdata, hover, heq⟩ :=
    write_eq hr h hf hc hS hfit hlt ⟨fuel, fun _ _ => longNames⟩ buf
  have hsame := Vol.SameDirs.of_data hdata
  rw [hrun] at heq
  split at heq
  · cases heq
  split at heq
  · rename_i hgrow
    obtain ⟨d2, hset, hd2⟩ := Option.map_eq_some_iff.mp heq.symm
    cases hd2
    have hdirs := hf.dirs.congr h h.root_mem hsame
    rcases setFileSize_longNames hr1 hf.comps (hdirs.find_parent hr1 h1 hf.comps) h1 hk hset with
      rfl | ⟨⟨k', i'⟩, hlen, hstat, hsearch, hr2⟩
    · exact ⟨v1, hr1, h1, hsame, hover.fat, hover.cluster, .inl hdata⟩
    · obtain ⟨hreach, hscan⟩ := hsearch.at_spec
      have hk' : k' ∈ S := h1.closed.reaches hk hreach
      rw [hdata k hk] at hstat
      rw [hdata k' hk'] at hscan
      obtain ⟨hi', hattr, -⟩ := scanEntry_hit hscan
      obtain ⟨hsame2, hcluster2⟩ :=
        Vol.sameDirs_setSize (v := v1) (k := k') (S := S) hi' (offset + n) rfl
      have hlive := live_of_scanEntry hf.toPathTo hscan (by decide)
      refine ⟨_, hr2, h1.resize hk' hi' (live_withSize _ _) (isDir_withSize _ _)
        (withSize_cluster _ _) (withSize_of_lt _ _ (by decide)), hsame.trans hsame2,
        (v1.setSlot_fat ..).trans hover.fat,
        (hcluster2 k i (hf.owner h).2.1).trans hover.cluster,
        .inr ⟨hgrow, hlen, hstat, k', i', ⟨hk', hi', hlive⟩, ?_, hscan, fun x hx j hj hne => ?_⟩⟩
      · rw [IsDir, Vol.slot, hattr]
        decide
      · rw [(v1.setSlot_slot_of_ne hj hne).size, Vol.slot, Vol.slot, hdata x hx]
  · cases heq
    exact ⟨v1, hr1, h1, hsame, hover.fat, hover.cluster, .inl hdata⟩

section

variable (hdisk : OnDisk g d) (hwf : WellFormed g (vol g d)) (hsizes : SizesFit g (vol g d))
  (hf : (vol g d).FileAt g.root ts t k i) (hoff : offset ≤ fileSize ((vol g d).slot k i))
include hdisk hwf hsizes hf hoff

theorem covers_of_writeReads (h : WriteReads g d env (pathOf (ts ++ [t])) k i buf offset n) :
    (vol g d).Covers (getEntryCluster ((vol g d).slot k i)) (offset + n) := by
  obtain ⟨L, htidy⟩ := hwf
  have hr := hdisk.rep
  have hin := hf.owner htidy
  obtain ⟨hc, -⟩ := htidy.chain_of_file hin hf.chain
  have hsize := hc.covers_iff.mp (hsizes k i hin hf.file)
  rw [hc.covers_iff]
  by_contra hshort
  obtain ⟨d', hrun, -⟩ := h
  have hmod : offset % clusterSize < clusterSize := Nat.mod_lt _ (by decide)
  have hdiv := Nat.div_add_mod offset clusterSize
  obtain ⟨d1, w, hloop⟩ := hr.writeLoop_short hc hmod (Nat.le_refl n)
    (by rw [hdiv]; omega) (by rw [hdiv]; omega) buf 0
  have hskip := hr.skipClusters_eq (c := getEntryCluster ((vol g d).slot k i))
    (n := offset / clusterSize) fun j hj => (hc.range j (by unfold clusterSize at *; omega)).2
  rw [fat32WriteFileBytes, hf.toPathTo.find hr htidy, if_neg hf.chain, writeAt] at hrun
  dsimp only at hrun
  split at hrun
  · simp at hrun
  · rw [hskip] at hrun
    dsimp only at hrun
    rw [hloop] at hrun
    simp at hrun

omit hdisk hwf hoff in
/-- What a write and the reads after it do, if the volume after it is known. -/
theorem writeReads_of_overwritten (hlt : offset + n < 2 ^ 32)
    (hcovers : (vol g d).Covers (getEntryCluster ((vol g d).slot k i)) (offset + n))
    {L : Owner → List ℕ}
    (h : Tidy g (vol g d) {c | (vol g d).InTree g.root c} L) (hr' : Rep g False d' v')
    (h' : Tidy g v' {c | (vol g d).InTree g.root c} L)
    (hrun : fat32WriteFileBytes g.part env d (pathOf (ts ++ [t])) buf offset n = some (d', 0))
    (hover : (vol g d).Overwritten v' k i (getEntryCluster ((vol g d).slot k i))
      (L (.slot k i)).length (max (fileSize ((vol g d).slot k i)) (offset + n))
      (blit ((vol g d).byteOf (getEntryCluster ((vol g d).slot k i))) offset n buf))
    (hsize : ∀ junk, max (fileSize ((vol g d).slot k i)) (offset + n) ≤
      ((vol g d).entryOf t ts g.root).size v' junk) :
    WriteReads g d env (pathOf (ts ++ [t])) k i buf offset n := by
  have hin := hf.owner h
  obtain ⟨hc, hmem⟩ := h.chain_of_file hin hf.chain
  have hS := fun q hq => h.files _ hin hf.file _ (hmem q hq)
  have hsame := hover.sameDirs hS hf.file
  have hold := hc.covers_iff.mp (hsizes k i hin hf.file)
  have hfit := hc.covers_iff.mp hcovers
  have hlt' := fileSize_lt ((vol g d).slot k i)
  have hc' := hc.congr hover.fat
  rw [← hover.cluster] at hc'
  have hread := read_eq hr' h' (hf.congr h hsame hover.cluster) hc'
    (show max (fileSize ((vol g d).slot k i)) (offset + n) ≤ _ by omega) (by omega)
  refine ⟨d', hrun, ?_, fun junk out =>
    ⟨blit out 0 (max (fileSize ((vol g d).slot k i)) (offset + n))
    (v'.byteOf (getEntryCluster (v'.slot k i))), ?_, fun p hp => ?_⟩, ?_⟩
  · rw [hr'.vol, hover.size]
  · rw [hread, (h.entryOf_congr hsame h.root_mem hf.only).1, Nat.min_eq_right (hsize _)]
  · rw [blit_of_mem _ _ (Nat.zero_le p) (by omega), Nat.sub_zero, hover.cluster]
    exact hover.bytes p (by omega)
  · intro k' i' hin' hfile' hother
    rw [hr'.vol]
    exact hover.other h hin hf.file hf.chain hin' hfile' hother (hsizes k' i' hin' hfile')

/-- A write that finds what it needs does what it should. -/
theorem writeReads_of_writable (hlt : offset + n < 2 ^ 32)
    (hw : (vol g d).Writable g.root ts t k i offset n) (hfuel : 0 < env.fuel) :
    WriteReads g d env (pathOf (ts ++ [t])) k i buf offset n := by
  obtain ⟨L, h⟩ := id hwf
  have hr := hdisk.rep
  have hin := hf.owner h
  obtain ⟨hc, hmem⟩ := h.chain_of_file hin hf.chain
  have hS := fun q hq => h.files _ hin hf.file _ (hmem q hq)
  have hfit := hc.covers_iff.mp hw.covers
  obtain ⟨d1, v1, hr1, h1, hdata, hover, hrun⟩ := write_eq hr h hf hc hS hfit hlt env buf
  by_cases hgrow : fileSize ((vol g d).slot k i) < offset + n
  · obtain ⟨hentry, hlen, ⟨j, hstat⟩, hscan⟩ := hw.grows hgrow
    rw [hentry, EntrySearch.size, if_neg (by omega), if_pos hgrow] at hrun
    have hsame := Vol.SameDirs.of_data hdata
    have hk := hin.1
    rw [← hdata k hk] at hstat hscan
    have hdirs := hf.dirs.congr h h.root_mem hsame
    obtain ⟨d2, hset, hr2⟩ := setFileSize_hit hr1 (h.closed k hk).1 hf.comps
      (hdirs.find_parent hr1 h1 hf.comps) { env with junk := fun n => env.junk (n + 4) } hlen hstat
      hscan hfuel (offset + n)
    have hover2 := hover.setSize hin.2.1 (fun q hq => ne_of_mem_of_not_mem hk (hS q hq)) hlt
    have h2 := h1.resize hk hin.2.1 (live_withSize (offset + n) _) (isDir_withSize _ _)
      (withSize_cluster _ _) (withSize_of_lt _ _ (by decide))
    have hmax : max (fileSize ((vol g d).slot k i)) (offset + n) = offset + n := by omega
    rw [hset] at hrun
    refine writeReads_of_overwritten hsizes hf hlt hw.covers h hr2 h2 hrun ?_ ?_
    · rw [hmax]
      exact hover2
    · intro junk
      rw [hentry, EntrySearch.size, hover2.size, hmax]
  · have hmax :
      max (fileSize ((vol g d).slot k i)) (offset + n) = fileSize ((vol g d).slot k i) := by
      omega
    have hlarge : ∀ junk, fileSize ((vol g d).slot k i) ≤
        ((vol g d).entryOf t ts g.root).size (vol g d) junk := by
      intro junk
      have hlt' := fileSize_lt ((vol g d).slot k i)
      rcases hw.inside (by omega) with hnone | ⟨k', i', hfound, hle⟩
      · rw [hnone, EntrySearch.size]
        omega
      · rw [hfound]
        exact hle
    have hlarge' := hlarge (env.junk 3 0)
    rw [if_neg (by omega), if_neg (by omega)] at hrun
    refine writeReads_of_overwritten hsizes hf hlt hw.covers h hr1 h1 hrun ?_ ?_
    · rw [hmax]
      exact hover
    · intro junk
      rw [hmax]
      refine (hlarge junk).trans_eq ?_
      cases hentry : (vol g d).entryOf t ts g.root with
      | found k' i' =>
        have hk' := (h.mem_of_entryOf h.root_mem hf.only hentry).1
        rw [EntrySearch.size, EntrySearch.size, Vol.slot, Vol.slot, hdata k' hk']
      | noDirectory => rfl
      | noEntry => rfl

/-- A write that does what it should finds what it needs. -/
theorem writable_of_writeReads (hn : 0 < n) (hlt : offset + n < 2 ^ 32) {fuel : ℕ}
    (hwrite : WriteReads g d ⟨fuel, fun _ _ => longNames⟩ (pathOf (ts ++ [t])) k i buf offset n) :
    (vol g d).Writable g.root ts t k i offset n := by
  have hcovers := covers_of_writeReads hdisk hwf hsizes hf hoff hwrite
  obtain ⟨L, h⟩ := hwf
  have hin := hf.owner h
  obtain ⟨hc, hmem⟩ := h.chain_of_file hin hf.chain
  have hfit := hc.covers_iff.mp hcovers
  have hold := hc.covers_iff.mp (hsizes k i hin hf.file)
  have hlt' := fileSize_lt ((vol g d).slot k i)
  obtain ⟨d', hrun, hsize, hread, hother⟩ := hwrite
  obtain ⟨v', hr', h', hsame, hfat, hcluster, hcases⟩ := write_longNames hdisk.rep h hf hc
    (fun q hq => h.files _ hin hf.file _ (hmem q hq)) hfit hlt hrun
  rw [hr'.vol] at hsize hother
  -- the sizes of the other entries are the same
  have hkeep : ∀ k' i', (vol g d).InTree g.root k' → i' < slotsPerCluster → (k', i') ≠ (k, i) →
      fileSize (v'.slot k' i') = fileSize ((vol g d).slot k' i') := by
    intro k' i' hk' hi' hne
    rcases hcases with hdata | ⟨-, -, -, k2, i2, hin2, hfile2, -, hslots⟩
    · rw [Vol.slot, Vol.slot, hdata k' hk']
    · by_cases heq : (k', i') = (k2, i2)
      · cases heq
        exact (hother _ _ hin2 hfile2 hne).1.size
      · exact hslots k' hk' i' hi' heq
  -- the file is read up to the size that `find_dir_entry` finds
  have hfound : (vol g d).entryOf t ts g.root = .noDirectory ∨
      ∃ k' i', (vol g d).entryOf t ts g.root = .found k' i' ∧ ((k', i') = (k, i) ∨
        max (fileSize ((vol g d).slot k i)) (offset + n) ≤ fileSize ((vol g d).slot k' i')) := by
    obtain ⟨out, hout, -⟩ := hread (fun _ _ => 0) fun _ => 0
    have hc' := hc.congr hfat
    rw [← hcluster] at hc'
    rw [read_eq hr' h' (hf.congr h hsame hcluster) hc' (by omega) (by omega),
      (h.entryOf_congr hsame h.root_mem hf.only).1] at hout
    have hle := min_eq_right_iff.mp (Int.ofNat.inj (congrArg Prod.fst hout))
    cases hentry : (vol g d).entryOf t ts g.root with
    | noDirectory => exact .inl rfl
    | noEntry =>
      rw [hentry, EntrySearch.size, show fileSize (fun _ => 0) = 0 by decide] at hle
      omega
    | found k' i' =>
      obtain ⟨hk', hi'⟩ := h.mem_of_entryOf h.root_mem hf.only hentry
      refine .inr ⟨k', i', rfl, or_iff_not_imp_left.mpr fun hne => ?_⟩
      rw [hentry, EntrySearch.size, hkeep k' i' hk' hi' hne] at hle
      exact hle
  refine ⟨hcovers, fun hinside => hfound.imp_right ?_, fun hgrow => ?_⟩
  · rintro ⟨k', i', hentry, heq | hle⟩
    · cases heq
      exact ⟨k, i, hentry, le_rfl⟩
    · exact ⟨k', i', hentry, by omega⟩
  · -- the size is recorded in the entry of the file
    rcases hcases with hdata | ⟨hshort, hlen, hstat, k2, i2, -, -, hscan, hslots⟩
    · rw [Vol.slot, hdata k hin.1, ← Vol.slot] at hsize
      omega
    · have heq : (k, i) = (k2, i2) := by
        by_contra hne
        have hsize' := hslots k hin.1 i hin.2.1 hne
        omega
      cases heq
      refine ⟨?_, hlen, hstat.resolve_left fun hexhausted => ?_, hscan⟩
      · rcases hfound with hnone | ⟨k', i', hentry, heq | hle⟩
        · rw [hnone, EntrySearch.size] at hshort
          omega
        · cases heq
          exact hentry
        · rw [hentry, EntrySearch.size] at hshort
          omega
      · obtain ⟨hi, hattr, hname⟩ := scanEntry_hit hscan
        rw [scanStat, scanBy, scan_eq_exhausted_iff] at hexhausted
        have hmiss := (hexhausted i hi).2
        rw [hasStatName_of_name hlen hname (by rw [hattr]; decide) (by rw [hattr]; decide)] at hmiss
        cases hmiss

end

end Main

/-! ## A file of one cluster -/

/-- A file `A` of the given size in one cluster; all other clusters are free. -/
def oneFileDisk (size : ℕ) : Disk :=
  smallDisk [0x0FFFFFF8, 0x0FFFFFFF, 0x0FFFFFF8, 0x0FFFFFF8]
    [withSize size (newEntry (formatName83 [0x41]) 0x20 3)]

def fullDisk : Disk := oneFileDisk 4096

theorem oneFileDisk_onDisk (size : ℕ) : OnDisk smallGeometry (oneFileDisk size) :=
    smallDisk_onDisk _ _

/-- What is evaluated of the file that fills its cluster, and of one that is shorter by a byte. -/
theorem oneFileDisk_eval : ∀ size ∈ [4095, 4096],
    Flat smallGeometry (vol smallGeometry (oneFileDisk size)) ∧
    (∀ i < slotsPerCluster, Live ((vol smallGeometry (oneFileDisk size)).slot 2 i) → i = 0) ∧
    scanToken ((vol smallGeometry (oneFileDisk size)).data 2) [0x41] = .hit 0 ∧
    (vol smallGeometry (oneFileDisk size)).dirHits 2 (formatName83 [0x41]) = [0] ∧
    scanStat [0x41] ((vol smallGeometry (oneFileDisk size)).data 2) = .hit 0 ∧
    scanEntry 0x20 (formatName83 [0x41]) ((vol smallGeometry (oneFileDisk size)).data 2) = .hit 0 ∧
    (∀ q < 1, (vol smallGeometry (oneFileDisk size)).nth 3 q ≠ 0) ∧
    getEntryCluster ((vol smallGeometry (oneFileDisk size)).slot 2 0) = 3 ∧
    fileSize ((vol smallGeometry (oneFileDisk size)).slot 2 0) = size := by
  decide +kernel

section OneFile

variable {size offset n : ℕ} (hsize : size ∈ [4095, 4096])
include hsize

theorem oneFileDisk_flat : Flat smallGeometry (vol smallGeometry (oneFileDisk size)) :=
  (oneFileDisk_eval size hsize).1

theorem oneFileDisk_covers (h : n ≤ 4096) : (vol smallGeometry (oneFileDisk size)).Covers 3 n := by
  obtain ⟨-, -, -, -, -, -, hchain, -⟩ := oneFileDisk_eval size hsize
  intro q hq
  unfold clusterSize at hq
  exact hchain q (by omega)

theorem oneFileDisk_sizesFit : SizesFit smallGeometry (vol smallGeometry (oneFileDisk size)) := by
  obtain ⟨hflat, hslots, -, -, -, -, -, hcluster, heq⟩ := oneFileDisk_eval size hsize
  rintro k i ⟨hk, hi, hlive⟩ -
  obtain rfl : k = 2 := hflat.inTree hk
  obtain rfl := hslots i hi hlive
  rw [hcluster, heq]
  refine oneFileDisk_covers hsize ?_
  simp only [mem_cons, not_mem_nil, or_false] at hsize
  omega

theorem oneFileDisk_entry : (vol smallGeometry (oneFileDisk size)).slot 2 0 11 = 0x20 ∧
    cells 11 ((vol smallGeometry (oneFileDisk size)).slot 2 0) = formatName83 [0x41] := by
  obtain ⟨-, -, -, -, -, hentry, -⟩ := oneFileDisk_eval size hsize
  exact (scanEntry_hit hentry).2

theorem oneFileDisk_not_isDir : ¬ IsDir ((vol smallGeometry (oneFileDisk size)).slot 2 0) := by
  rw [IsDir, (oneFileDisk_entry hsize).1]
  decide

theorem oneFileDisk_fileAt :
    (vol smallGeometry (oneFileDisk size)).FileAt smallGeometry.root [] [0x41] 2 0 := by
  obtain ⟨-, -, hfound, -, -, -, -, hcluster, -⟩ := oneFileDisk_eval size hsize
  refine ⟨⟨?_, .nil, hfound⟩, trivial, oneFileDisk_not_isDir hsize, ?_⟩
  · intro t ht
    obtain rfl := mem_singleton.mp ht
    decide
  · rw [hcluster]
    decide

theorem oneFileDisk_writable (hend : offset + n ≤ 4096) :
    (vol smallGeometry (oneFileDisk size)).Writable smallGeometry.root [] [0x41] 2 0 offset n := by
  obtain ⟨-, -, -, hhits, hstat, hentry, -, hcluster, -⟩ := oneFileDisk_eval size hsize
  have hfound : (vol smallGeometry (oneFileDisk size)).entryOf [0x41] [] smallGeometry.root =
      .found 2 0 := by
    rw [Vol.entryOf, show smallGeometry.root = 2 from rfl, hhits]
    rfl
  refine ⟨?_, fun _ => .inr ⟨2, 0, hfound, le_rfl⟩, fun _ =>
    ⟨hfound, by decide, ⟨0, hstat⟩, hentry⟩⟩
  rw [hcluster]
  exact oneFileDisk_covers hsize hend

end OneFile

theorem mem_fullSizes : 4096 ∈ [4095, 4096] := by decide

end CarrotOS.Fat32
