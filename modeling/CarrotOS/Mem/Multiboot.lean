import CarrotOS.Lib.Bytes
import CarrotOS.Mem.Blocks

/-!
# The memory map of the boot loader (`libs/grub/grub.h`)

The boot loader leaves a list of tags in memory. One of them is the memory map: the regions of
physical memory with their types, of which type 1 is available. `get_total_memory` adds up the
lengths of the available regions, and `total_memory_blocks_count` is this sum in blocks. The
allocator then takes the number for the end of one range that starts at address 0: where the regions
lie is forgotten. So the blocks that are handed out are those below the sum, and they are available
exactly if the available regions have no hole there.
-/

namespace CarrotOS.Multiboot

open Word Bytes Transition List Option

variable {i k : ℕ}

/-! ## The format -/

abbrev Memory := ℕ → UInt8

def multibootInfoPtr64 : ℕ := 0x10000

def multibootTagTypeMmap : ℕ := 6

def available : ℕ := 1

/-- `multiboot_mmap_entry`, without the reserved word. -/
@[ext] structure MmapEntry where
  baseAddr : ℕ
  length : ℕ
  type : ℕ
  baseAddr_lt : baseAddr < 2 ^ 64
  length_lt : length < 2 ^ 64
  type_lt : type < 2 ^ 32

def load (k : ℕ) (m : Memory) (a : ℕ) : ℕ :=
  leNat k fun i => m (a + i)

theorem load_four_lt (m : Memory) (a : ℕ) : load 4 m a < 2 ^ 32 := leNat_lt 4 _

theorem load_eight_lt (m : Memory) (a : ℕ) : load 8 m a < 2 ^ 64 := leNat_lt 8 _

def entryAt (m : Memory) (a : ℕ) : MmapEntry where
  baseAddr := load 8 m a
  length := load 8 m (a + 8)
  type := load 4 m (a + 16)
  baseAddr_lt := load_eight_lt m a
  length_lt := load_eight_lt m (a + 8)
  type_lt := load_four_lt m (a + 16)

def tagType (m : Memory) (tag : ℕ) : ℕ := load 4 m tag

def tagSize (m : Memory) (tag : ℕ) : ℕ := load 4 m (tag + 4)

def entrySize (m : Memory) (tag : ℕ) : ℕ := load 4 m (tag + 8)

def nextTag (m : Memory) (tag : ℕ) : ℕ :=
  u64 (tag + tagSize m tag + 7) / 8 * 8

/-! ## `get_total_memory` -/

/-- The inner loop, over the entries of the map. -/
def sumEntries (m : Memory) (entrySize endPtr : ℕ) : ℕ → ℕ → ℕ → Option ℕ
  | 0, _, _ => none
  | fuel + 1, entryPtr, total =>
    if entryPtr < endPtr then
      let entry := entryAt m entryPtr
      sumEntries m entrySize endPtr fuel (u64 (entryPtr + entrySize))
        (if entry.type = available then u64 (total + entry.length) else total)
    else some total

/-- The outer loop, over the tags, which ends behind the memory map. -/
def sumTags (m : Memory) : ℕ → ℕ → Option ℕ
  | 0, _ => none
  | fuel + 1, tag =>
    if tagType m tag ≠ 0 then
      if tagType m tag = multibootTagTypeMmap then
        sumEntries m (entrySize m tag) (u64 (tag + tagSize m tag)) fuel (u64 (tag + 16)) 0
      else sumTags m fuel (nextTag m tag)
    else some 0

/-- The largest amount of memory that is used, 128 TB. -/
def maxMemory : ℕ := 128 * 1024 * 1024 * 1024 * 1024

structure MemorySize where
  totalMemoryBlocksCount : ℕ
  totalMemory : ℕ
  deriving DecidableEq, Repr

def getTotalMemory (m : Memory) (fuel : ℕ) : Option MemorySize :=
  (sumTags m fuel (multibootInfoPtr64 + 8)).map fun total =>
    let total := if maxMemory < total then maxMemory else total
    ⟨total / 4096, total / 4096 * 4096⟩

/-! ## Memory maps -/

/-- The entries from `a` on, one behind the other up to the end of the tag. -/
inductive EntriesAt (m : Memory) (entrySize endPtr : ℕ) : ℕ → List MmapEntry → Prop
  | done {a : ℕ} (h : endPtr ≤ a) : EntriesAt m entrySize endPtr a []
  | next {a : ℕ} {rs : List MmapEntry} (h : a < endPtr)
    (hrest : EntriesAt m entrySize endPtr (u64 (a + entrySize)) rs) :
    EntriesAt m entrySize endPtr a (entryAt m a :: rs)

/-- The tags from `tag` on have the memory map `rs`, which is empty if no tag is a memory map. -/
inductive MapAt (m : Memory) : ℕ → List MmapEntry → Prop
  | absent {tag : ℕ} (h : tagType m tag = 0) : MapAt m tag []
  | here {tag : ℕ} {rs : List MmapEntry} (h : tagType m tag = multibootTagTypeMmap)
    (hentries : EntriesAt m (entrySize m tag) (u64 (tag + tagSize m tag)) (u64 (tag + 16)) rs) :
    MapAt m tag rs
  | skip {tag : ℕ} {rs : List MmapEntry} (h : tagType m tag ≠ 0)
    (hother : tagType m tag ≠ multibootTagTypeMmap) (hrest : MapAt m (nextTag m tag) rs) :
    MapAt m tag rs

def availableBytes : List MmapEntry → ℕ
  | [] => 0
  | r :: rs => (if r.type = available then r.length else 0) + availableBytes rs

def InRam (rs : List MmapEntry) (b : ℕ) : Prop :=
  ∃ r ∈ rs, r.type = available ∧ r.baseAddr ≤ 4096 * b ∧ 4096 * b + 4096 ≤ r.baseAddr + r.length

instance (rs : List MmapEntry) (b : ℕ) : Decidable (InRam rs b) :=
  inferInstanceAs (Decidable (∃ r ∈ rs, _))

section Sum

variable {m : Memory} {size endPtr a tag total : ℕ} {rs : List MmapEntry}

theorem sumEntries_eq (h : EntriesAt m size endPtr a rs) (htotal : total < 2 ^ 64) :
    ∃ n, ∀ fuel, n ≤ fuel →
      sumEntries m size endPtr fuel a total = some (u64 (total + availableBytes rs)) := by
  induction h generalizing total with
  | done hend =>
    refine ⟨1, ?_⟩
    intro fuel hfuel
    obtain ⟨fuel, rfl⟩ := Nat.exists_eq_add_of_le' hfuel
    rw [sumEntries, if_neg (Nat.not_lt.mpr hend), availableBytes, Nat.add_zero, u64_of_lt htotal]
  | @next a rs hlt _ ih =>
    have hlt' : (if (entryAt m a).type = available then u64 (total + (entryAt m a).length)
        else total) < 2 ^ 64 := by
      split
      · exact Nat.mod_lt _ (by decide)
      · exact htotal
    obtain ⟨n, hn⟩ := ih hlt'
    refine ⟨n + 1, ?_⟩
    intro fuel hfuel
    obtain ⟨fuel, rfl⟩ := Nat.exists_eq_add_of_le' (show 1 ≤ fuel by omega)
    rw [sumEntries, if_pos hlt]
    rw [hn fuel (by omega), availableBytes]
    congr 1
    split
    · unfold u64
      omega
    · rw [Nat.zero_add]

theorem sumTags_eq (h : MapAt m tag rs) :
    ∃ n, ∀ fuel, n ≤ fuel → sumTags m fuel tag = some (u64 (availableBytes rs)) := by
  induction h with
  | absent htype =>
    refine ⟨1, ?_⟩
    intro fuel hfuel
    obtain ⟨fuel, rfl⟩ := Nat.exists_eq_add_of_le' hfuel
    rw [sumTags, if_neg (not_not.mpr htype)]
    rfl
  | here htype hentries =>
    obtain ⟨n, hn⟩ := sumEntries_eq hentries (show 0 < 2 ^ 64 by decide)
    refine ⟨n + 1, ?_⟩
    intro fuel hfuel
    obtain ⟨fuel, rfl⟩ := Nat.exists_eq_add_of_le' (show 1 ≤ fuel by omega)
    rw [sumTags, if_pos (by rw [htype]; decide), if_pos htype, hn fuel (by omega), Nat.zero_add]
  | skip htype hother _ ih =>
    obtain ⟨n, hn⟩ := ih
    refine ⟨n + 1, ?_⟩
    intro fuel hfuel
    obtain ⟨fuel, rfl⟩ := Nat.exists_eq_add_of_le' (show 1 ≤ fuel by omega)
    rw [sumTags, if_pos htype, if_neg hother]
    exact hn fuel (by omega)

/-- **`get_total_memory` ends with the sum of the available lengths**, cut off at 128 TB and rounded
down to blocks. -/
theorem getTotalMemory_eq (h : MapAt m (multibootInfoPtr64 + 8) rs) :
    ∃ n, ∀ fuel, n ≤ fuel → getTotalMemory m fuel =
      some ⟨min (u64 (availableBytes rs)) maxMemory / 4096,
        min (u64 (availableBytes rs)) maxMemory / 4096 * 4096⟩ := by
  obtain ⟨n, hn⟩ := sumTags_eq h
  refine ⟨n, ?_⟩
  intro fuel hfuel
  have hmin : (if maxMemory < u64 (availableBytes rs) then maxMemory else u64 (availableBytes rs)) =
      min (u64 (availableBytes rs)) maxMemory := by
    split <;> omega
  rw [getTotalMemory, hn fuel hfuel, map_some, hmin]

end Sum

/-! ## A memory with a given map -/

def entryByte (r : MmapEntry) (k : ℕ) : UInt8 :=
  if k < 8 then leByte r.baseAddr k
  else if k < 16 then leByte r.length (k - 8)
  else if k < 20 then leByte r.type (k - 16)
  else 0

/-- The first 16 bytes of the tag of a map with `n` entries: type, size, size of an entry and
version. -/
def headerByte (n k : ℕ) : UInt8 :=
  if k < 4 then leByte multibootTagTypeMmap k
  else if k < 8 then leByte (16 + 24 * n) (k - 4)
  else if k < 12 then leByte 24 (k - 8)
  else 0

/-- The memory in which the first tag is the map of the given regions. -/
def encodeMap (rs : List MmapEntry) : Memory := fun a =>
  if a < multibootInfoPtr64 + 8 then 0
  else if a < multibootInfoPtr64 + 24 then headerByte rs.length (a - (multibootInfoPtr64 + 8))
  else (rs[(a - (multibootInfoPtr64 + 24)) / 24]?).elim 0 fun r =>
    entryByte r ((a - (multibootInfoPtr64 + 24)) % 24)

section Encode

variable (rs : List MmapEntry)

theorem load_of_leByte {x a : ℕ} {m : Memory} (hx : x < 256 ^ k)
    (h : ∀ i < k, m (a + i) = leByte x i) : load k m a = x := by
  rw [load, leNat_congr h, leNat_leByte, Nat.mod_eq_of_lt hx]

theorem encodeMap_header (hk : k < 16) :
    encodeMap rs (multibootInfoPtr64 + 8 + k) = headerByte rs.length k := by
  rw [encodeMap, if_neg (by omega), if_pos (by omega), Nat.add_sub_cancel_left]

theorem encodeMap_entry {r : MmapEntry} (hr : rs[i]? = some r) (hk : k < 24) :
    encodeMap rs (multibootInfoPtr64 + 24 + 24 * i + k) = entryByte r k := by
  have hdiv : (24 * i + k) / 24 = i := by omega
  have hmod : (24 * i + k) % 24 = k := by omega
  rw [encodeMap, if_neg (by omega), if_neg (by omega), Nat.add_assoc _ (24 * i),
    Nat.add_sub_cancel_left, hdiv, hmod, hr]
  rfl

theorem entryAt_encodeMap {r : MmapEntry} (hr : rs[i]? = some r) :
    entryAt (encodeMap rs) (multibootInfoPtr64 + 24 + 24 * i) = r := by
  refine MmapEntry.ext ?_ ?_ ?_
  · refine load_of_leByte r.baseAddr_lt fun j hj => ?_
    rw [encodeMap_entry rs hr (by omega), entryByte, if_pos hj]
  · refine load_of_leByte r.length_lt fun j hj => ?_
    rw [Nat.add_assoc, encodeMap_entry rs hr (by omega), entryByte, if_neg (by omega),
      if_pos (by omega), Nat.add_sub_cancel_left]
  · refine load_of_leByte r.type_lt fun j hj => ?_
    rw [Nat.add_assoc, encodeMap_entry rs hr (by omega), entryByte, if_neg (by omega),
      if_neg (by omega), if_pos (by omega), Nat.add_sub_cancel_left]

theorem entriesAt_encodeMap (hlength : 16 + 24 * rs.length < 2 ^ 32) (hi : i ≤ rs.length) :
    EntriesAt (encodeMap rs) 24 (multibootInfoPtr64 + 24 + 24 * rs.length)
      (multibootInfoPtr64 + 24 + 24 * i) (rs.drop i) := by
  -- induction on the number of entries that are left
  induction hleft : rs.length - i generalizing i with
  | zero =>
    obtain rfl : i = rs.length := by omega
    rw [drop_length]
    exact .done le_rfl
  | succ left ih =>
    have hlt : i < rs.length := by omega
    have hrest := ih (i := i + 1) (by omega) (by omega)
    have hget : rs[i]? = some rs[i] := getElem?_eq_getElem hlt
    rw [drop_eq_getElem_cons hlt, ← entryAt_encodeMap rs hget]
    refine .next (by omega) ?_
    rw [u64_of_lt (by unfold multibootInfoPtr64; omega)]
    exact hrest

/-- **Every list of regions is the map of some memory**, if its tag has a size of 32 bits. -/
theorem mapAt_encodeMap (hlength : 16 + 24 * rs.length < 2 ^ 32) :
    MapAt (encodeMap rs) (multibootInfoPtr64 + 8) rs := by
  have htype : tagType (encodeMap rs) (multibootInfoPtr64 + 8) = multibootTagTypeMmap := by
    refine load_of_leByte (by decide) fun j hj => ?_
    rw [encodeMap_header rs (by omega), headerByte, if_pos hj]
  have hsize : tagSize (encodeMap rs) (multibootInfoPtr64 + 8) = 16 + 24 * rs.length := by
    refine load_of_leByte hlength fun j hj => ?_
    rw [Nat.add_assoc, encodeMap_header rs (by omega), headerByte, if_neg (by omega),
      if_pos (by omega), Nat.add_sub_cancel_left]
  have hentry : entrySize (encodeMap rs) (multibootInfoPtr64 + 8) = 24 := by
    refine load_of_leByte (by decide) fun j hj => ?_
    rw [Nat.add_assoc, encodeMap_header rs (by omega), headerByte, if_neg (by omega),
      if_neg (by omega), if_pos (by omega), Nat.add_sub_cancel_left]
  have hentries := entriesAt_encodeMap rs hlength (Nat.zero_le _)
  refine .here htype ?_
  rw [hsize, hentry, u64_of_lt (by unfold multibootInfoPtr64; omega), ← Nat.add_assoc]
  exact hentries

end Encode

/-! ## What is handed out -/

/-- Every block that `get_a_free_block` returns after a sequence of calls from boot on is available
memory; `map₀` is what `memory_map` holds at boot. -/
def HandsOutRam (boot : Boot) (map₀ : MemoryMap) (rs : List MmapEntry) : Prop :=
  ∀ calls s b map', Run (AllocCall.step boot) AllocCall.Ok ⟨markReservedBlocksAsUsed boot map₀, []⟩
    calls s → getAFreeBlock boot s.map = some (b, map') → InRam rs b

section Runs

variable {boot : Boot} {s0 s : AllocState} {calls : List AllocCall} {b : ℕ}

theorem mem_searched_of_reserved (hres : boot.reservedBlocksCount ≤ b)
    (hlt : b < boot.totalMemoryBlocksCount) : b ∈ boot.searched := by
  have hkernel : boot.totalKernelMemBlocksCount ≤ boot.reservedBlocksCount := by
    unfold Boot.totalKernelMemBlocksCount Boot.reservedBlocksCount divCeil
    split <;> omega
  refine mem_range'_1.mpr ⟨by omega, by omega⟩

/-- A block that is free can be returned: the search takes the free blocks one after the other. -/
theorem exists_run_getAFreeBlock (hrun : Run (AllocCall.step boot) AllocCall.Ok s0 calls s)
    (hb : b ∈ boot.freeBlocks s.map) :
    ∃ calls' s' map', Run (AllocCall.step boot) AllocCall.Ok s0 calls' s' ∧
      getAFreeBlock boot s'.map = some (b, map') := by
  -- induction on the free blocks that are left
  induction hfree : boot.freeBlocks s.map generalizing s calls with
  | nil =>
    rw [hfree] at hb
    cases hb
  | cons i rest ih =>
    have hsome : (getAFreeBlock boot s.map).isSome := by
      obtain ⟨hmem, hzero⟩ := mem_filter.mp hb
      rw [getAFreeBlock, isSome_map, find?_isSome]
      exact ⟨b, hmem, hzero⟩
    obtain ⟨⟨k, map'⟩, hget⟩ := isSome_iff_exists.mp hsome
    have hcons := freeBlocks_eq_cons hget
    rcases mem_cons.mp (hcons ▸ hb) with rfl | hrest
    · exact ⟨calls, s, map', hrun, hget⟩
    · have hstep : AllocCall.step boot s .getAFreeBlock = some ⟨map', [k] ++ s.held⟩ := by
        rw [AllocCall.step, AllocCall.run, hget]
        rfl
      have hok : AllocCall.Ok s .getAFreeBlock := trivial
      have htail : boot.freeBlocks map' = rest := (cons.inj (hcons.symm.trans hfree)).2
      exact ih (.snoc hrun hok hstep) hrest htail

/-- Blocks that are free or handed out were free at boot. -/
def FreeAtBoot (map : MemoryMap) (s : AllocState) : Prop :=
  ∀ b, s.map b = 0 ∨ b ∈ s.held → map b = 0

theorem FreeAtBoot.step {map : MemoryMap} (h : FreeAtBoot map s) {call : AllocCall}
    (hok : call.Ok s) {s' : AllocState} (hstep : call.step boot s = some s') :
    FreeAtBoot map s' := by
  obtain ⟨⟨blocks, m⟩, hrun, rfl⟩ := map_eq_some_iff.mp hstep
  have hframe := fun c => AllocCall.run_frame hrun (b := c)
  -- what the call returns or frees was free or handed out before
  have hblocks : ∀ c ∈ blocks, map c = 0 := by
    intro c hc
    cases call with
    | getAFreeBlock =>
      obtain ⟨⟨i, m'⟩, hget, heq⟩ := map_eq_some_iff.mp hrun
      cases heq
      obtain rfl := mem_singleton.mp hc
      exact h c (.inl (getAFreeBlock_eq_some hget).2.1)
    | getContinuousFreeBlocks length =>
      obtain ⟨⟨i, m'⟩, hget, heq⟩ := map_eq_some_iff.mp hrun
      cases heq
      exact h c (.inl ((getContinuousFreeBlocks_eq_some hget).2.1 c hc))
    | free index =>
      cases hrun
      obtain rfl := mem_singleton.mp hc
      exact h c (.inr hok)
  intro c hc
  by_cases hmem : c ∈ blocks
  · exact hblocks c hmem
  · refine h c ?_
    rcases hc with hzero | hheld
    · exact .inl ((hframe c hmem).symm.trans hzero)
    · right
      cases call with
      | getAFreeBlock => exact (mem_append.mp hheld).resolve_left hmem
      | getContinuousFreeBlocks length => exact (mem_append.mp hheld).resolve_left hmem
      | free index => exact mem_of_mem_erase hheld

theorem exists_run_iff (boot : Boot) (map0 : MemoryMap) (b : ℕ) :
    (∃ calls s map', Run (AllocCall.step boot) AllocCall.Ok
      ⟨markReservedBlocksAsUsed boot map0, []⟩ calls s ∧
        getAFreeBlock boot s.map = some (b, map')) ↔
    boot.reservedBlocksCount ≤ b ∧ b < boot.totalMemoryBlocksCount ∧ map0 b = 0 := by
  have hmarked : ∀ c, markReservedBlocksAsUsed boot map0 c =
      if c < boot.reservedBlocksCount then 1 else map0 c := by
    intro c
    rw [markReservedBlocksAsUsed, markUsed_apply]
    simp only [mem_range]
  constructor
  · rintro ⟨calls, s, map', hrun, hget⟩
    have hfree := hrun.invariant (FreeAtBoot (markReservedBlocksAsUsed boot map0))
      (fun _ _ _ h hok hs => h.step hok hs) fun c hc => hc.resolve_right (by simp)
    obtain ⟨hmem, hzero, -⟩ := getAFreeBlock_eq_some hget
    have hboot := hfree b (.inl hzero)
    rw [hmarked] at hboot
    split at hboot
    · cases hboot
    · exact ⟨by omega, boot.lt_total_of_mem_searched hmem, hboot⟩
  · rintro ⟨hres, hlt, hzero⟩
    refine exists_run_getAFreeBlock (.nil _) (mem_filter.mpr
      ⟨mem_searched_of_reserved hres hlt, ?_⟩)
    dsimp only
    rw [hmarked, if_neg (by omega), hzero]
    rfl

end Runs

/-- **When only available memory is handed out**: every block behind the reserved ones that ends
within the sum of the available lengths, and is free at boot, is inside an available region. -/
theorem handsOutRam_iff {m : Memory} {rs : List MmapEntry}
    (hmap : MapAt m (multibootInfoPtr64 + 8) rs) :
    ∃ n size, (∀ fuel, n ≤ fuel → getTotalMemory m fuel = some size) ∧
      ∀ boot : Boot, boot.totalMemoryBlocksCount = size.totalMemoryBlocksCount →
        ∀ map₀, HandsOutRam boot map₀ rs ↔
          ∀ b, boot.reservedBlocksCount ≤ b →
            4096 * b + 4096 ≤ min (u64 (availableBytes rs)) maxMemory →
            map₀ b = 0 → InRam rs b := by
  obtain ⟨n, hn⟩ := getTotalMemory_eq hmap
  refine ⟨n, _, hn, ?_⟩
  intro boot hboot map₀
  dsimp only at hboot
  constructor
  · intro hram b hres hlt hzero
    obtain ⟨calls, s, map', hrun, hget⟩ := (exists_run_iff boot map₀ b).mpr ⟨hres, by omega, hzero⟩
    exact hram calls s b map' hrun hget
  · intro hholes calls s b map' hrun hget
    obtain ⟨hres, hlt, hzero⟩ := (exists_run_iff boot map₀ b).mp ⟨calls, s, map', hrun, hget⟩
    exact hholes b hres (by omega) hzero

def oneRegion : List MmapEntry :=
  [⟨0, 8 * 4096, available, by decide, by decide, by decide⟩]

/-- All blocks of the region are available. -/
theorem handsOutRam_iff_oneRegion :
    MapAt (encodeMap oneRegion) (multibootInfoPtr64 + 8) oneRegion ∧
      HandsOutRam smallBoot (fun _ => 0) oneRegion := by
  have hmap := mapAt_encodeMap oneRegion (by decide)
  obtain ⟨n, size, hsize, hiff⟩ := handsOutRam_iff hmap
  obtain ⟨n', hn'⟩ := getTotalMemory_eq hmap
  have hcount := some.inj ((hsize (n + n') (by omega)).symm.trans (hn' (n + n') (by omega)))
  refine ⟨hmap, (hiff smallBoot (by rw [hcount]; decide) _).mpr ?_⟩
  intro b _ hlt _
  have hlt' : 4096 * b + 4096 ≤ 8 * 4096 := hlt
  exact ⟨_, mem_singleton_self _, rfl, Nat.zero_le _, by dsimp only; omega⟩

/-- Two available regions of four blocks with a reserved one between them. -/
def holeRegions : List MmapEntry :=
  [⟨0, 4 * 4096, available, by decide, by decide, by decide⟩,
    ⟨4 * 4096, 4 * 4096, 2, by decide, by decide, by decide⟩,
    ⟨8 * 4096, 4 * 4096, available, by decide, by decide, by decide⟩]

/-- **Reserved memory is handed out**: the block 4, in the reserved region, is returned. -/
theorem allocator_hands_out_hole :
    MapAt (encodeMap holeRegions) (multibootInfoPtr64 + 8) holeRegions ∧
      (∃ n, ∀ fuel, n ≤ fuel → getTotalMemory (encodeMap holeRegions) fuel =
        some ⟨smallBoot.totalMemoryBlocksCount, 8 * 4096⟩) ∧
      ¬ InRam holeRegions 4 ∧ ¬ HandsOutRam smallBoot (fun _ => 0) holeRegions := by
  have hmap := mapAt_encodeMap holeRegions (by decide)
  have hout : ¬ InRam holeRegions 4 := by decide
  refine ⟨hmap, getTotalMemory_eq hmap, hout, ?_⟩
  intro hram
  obtain ⟨calls, s, map', hrun, hget⟩ :=
    (exists_run_iff smallBoot (fun _ => 0) 4).mpr ⟨by decide, by decide, rfl⟩
  exact hout (hram calls s 4 map' hrun hget)

end CarrotOS.Multiboot
