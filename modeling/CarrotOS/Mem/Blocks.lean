import CarrotOS.Lib.Run
import CarrotOS.Lib.Word
import Mathlib.Data.List.Nodup
import Mathlib.Logic.Function.Basic

/-!
# The physical block allocator of `core/scheduler.h`

`memory_map` has one byte for each physical block of 4096 bytes, zero when the block is free. The
kernel image and the map itself lie in the first blocks, which `mark_reserved_blocks_as_used`
marks at boot. Every kernel object, page table and page frame is then taken from the map by one of
two first-fit searches, which start at the last block of the kernel image and rely on the marks to
stay out of it.
-/

namespace CarrotOS

open Word Transition List Option

variable {b i index : ℕ} {blocks : List ℕ}

def HM : ℕ := 0x400000000000

/-- What is fixed before the allocator runs: the address of the label `end_kernel`, in the upper
half, and the number of blocks that the boot loader reports. -/
structure Boot where
  endKernel : ℕ
  totalMemoryBlocksCount : ℕ
  hm_le : HM ≤ endKernel
  endKernel_lt : endKernel < 2 ^ 64
  -- a number of bytes divided by 4096
  total_lt : totalMemoryBlocksCount < 2 ^ 52

/-- The bytes of `memory_map`. Indices past the number of blocks read the memory behind it. -/
abbrev MemoryMap := ℕ → UInt8

def setMemoryBlockUsedWhenBoot (map : MemoryMap) (index : ℕ) (used : Bool) : MemoryMap :=
  if used then Function.update map index 1 else Function.update map index 0

def divCeil (var1 var2 : ℕ) : ℕ :=
  if var1 % var2 > 0 then var1 / var2 + 1 else var1 / var2

/-- The loops that mark blocks as used, over the indices that they go through. -/
def markUsed (map : MemoryMap) (indices : List ℕ) : MemoryMap :=
  indices.foldl (fun m i => setMemoryBlockUsedWhenBoot m i true) map

namespace Boot

variable (boot : Boot)

/-- The number of blocks that `mark_reserved_blocks_as_used` marks: those of the kernel image and
those of the map. -/
def reservedBlocksCount : ℕ :=
  divCeil (boot.endKernel - HM) 4096 + divCeil boot.totalMemoryBlocksCount 4096

/-- `total_kernel_mem_blocks_count` of the two searches, rounded down. -/
def totalKernelMemBlocksCount : ℕ :=
  (boot.endKernel - HM) / 4096

def searched : List ℕ :=
  range' boot.totalKernelMemBlocksCount
    (boot.totalMemoryBlocksCount - boot.totalKernelMemBlocksCount)

end Boot

def markReservedBlocksAsUsed (boot : Boot) (map : MemoryMap) : MemoryMap :=
  markUsed map (range boot.reservedBlocksCount)

/-- `get_a_free_block`: the block and the new map. Without a free block the kernel panics. -/
def getAFreeBlock (boot : Boot) (map : MemoryMap) : Option (ℕ × MemoryMap) :=
  (boot.searched.find? fun i => map i == 0).map fun i =>
    (i, setMemoryBlockUsedWhenBoot map i true)

/-- The indices `i + j` for `j < length`, computed in 64 bits. -/
def blocksFrom (i length : ℕ) : List ℕ :=
  (range length).map fun j => u64 (i + j)

/-- `get_continuous_free_blocks`: the first block of the run and the new map. The run may reach
past the last block of the map. -/
def getContinuousFreeBlocks (boot : Boot) (length : ℕ) (map : MemoryMap) :
    Option (ℕ × MemoryMap) :=
  (boot.searched.find? fun i => (blocksFrom i length).all fun b => map b == 0).map fun i =>
    (i, markUsed map (blocksFrom i length))

/-! ## The map after a call -/

theorem setMemoryBlockUsedWhenBoot_ne {map : MemoryMap} (used : Bool) (h : b ≠ index) :
    setMemoryBlockUsedWhenBoot map index used b = map b := by
  cases used <;> simp [setMemoryBlockUsedWhenBoot, h]

@[simp] theorem setMemoryBlockUsedWhenBoot_true (map : MemoryMap) (index : ℕ) :
    setMemoryBlockUsedWhenBoot map index true index = 1 := by
  simp [setMemoryBlockUsedWhenBoot]

@[simp] theorem setMemoryBlockUsedWhenBoot_false (map : MemoryMap) (index : ℕ) :
    setMemoryBlockUsedWhenBoot map index false index = 0 := by
  simp [setMemoryBlockUsedWhenBoot]

theorem markUsed_apply (map : MemoryMap) (indices : List ℕ) (b : ℕ) :
    markUsed map indices b = if b ∈ indices then 1 else map b := by
  induction indices generalizing map with
  | nil => rfl
  | cons i indices ih =>
    change markUsed (setMemoryBlockUsedWhenBoot map i true) indices b = _
    rw [ih]
    by_cases hb : b = i
    · subst hb
      simp
    · simp [hb, setMemoryBlockUsedWhenBoot_ne true hb]

theorem le_mul_divCeil (a : ℕ) (hb : 0 < b) : a ≤ b * divCeil a b := by
  have hdiv := Nat.div_add_mod a b
  have hmod := Nat.mod_lt a hb
  unfold divCeil
  split_ifs with h
  · rw [Nat.mul_add, Nat.mul_one]
    omega
  · omega

namespace Boot

variable (boot : Boot)

theorem end_le_reserved :
    boot.endKernel - HM + boot.totalMemoryBlocksCount ≤ 4096 * boot.reservedBlocksCount := by
  have hkernel := le_mul_divCeil (boot.endKernel - HM) (show 0 < 4096 by decide)
  have hmap := le_mul_divCeil boot.totalMemoryBlocksCount (show 0 < 4096 by decide)
  rw [reservedBlocksCount, Nat.mul_add]
  exact Nat.add_le_add hkernel hmap

theorem lt_total_of_mem_searched (h : i ∈ boot.searched) :
    i < boot.totalMemoryBlocksCount := by
  obtain ⟨hlo, hhi⟩ := mem_range'_1.mp h
  omega

theorem reservedBlocksCount_pos (h : i ∈ boot.searched) : 0 < boot.reservedBlocksCount := by
  have hi := boot.lt_total_of_mem_searched h
  have hend := boot.end_le_reserved
  omega

end Boot

variable {boot : Boot} {map map' : MemoryMap} {i length : ℕ}

theorem getAFreeBlock_eq_some (h : getAFreeBlock boot map = some (i, map')) :
    i ∈ boot.searched ∧ map i = 0 ∧ map' = setMemoryBlockUsedWhenBoot map i true := by
  obtain ⟨k, hk, heq⟩ := map_eq_some_iff.mp h
  cases heq
  refine ⟨mem_of_find?_eq_some hk, ?_, rfl⟩
  simpa using find?_some hk

theorem getContinuousFreeBlocks_eq_some
    (h : getContinuousFreeBlocks boot length map = some (i, map')) :
    i ∈ boot.searched ∧ (∀ b ∈ blocksFrom i length, map b = 0) ∧
      map' = markUsed map (blocksFrom i length) := by
  obtain ⟨k, hk, heq⟩ := map_eq_some_iff.mp h
  cases heq
  refine ⟨mem_of_find?_eq_some hk, ?_, rfl⟩
  simpa using find?_some hk

theorem blocksFrom_eq (hi : i < 2 ^ 64) (h : 0 ∉ blocksFrom i length) :
    blocksFrom i length = (range length).map (i + ·) := by
  apply map_congr_left
  intro j hj
  apply u64_of_lt
  by_contra hwrap
  -- the run passes the last index, so it contains the index at which the sum is `2 ^ 64`
  apply h
  refine mem_map.mpr ⟨2 ^ 64 - i, ?_, ?_⟩
  · rw [mem_range] at hj ⊢
    omega
  · rw [u64, Nat.add_sub_cancel' (Nat.le_of_lt hi), Nat.mod_self]

theorem nodup_blocksFrom (hi : i < 2 ^ 64) (h : 0 ∉ blocksFrom i length) :
    (blocksFrom i length).Nodup := by
  rw [blocksFrom_eq hi h]
  exact nodup_range.map fun _ _ h => Nat.add_left_cancel h

/-- The free blocks that the searches can find, in the order in which they find them. -/
def Boot.freeBlocks (boot : Boot) (map : MemoryMap) : List ℕ :=
  boot.searched.filter fun b => map b == 0

/-- A search for one block takes the first of the free ones. -/
theorem freeBlocks_eq_cons (h : getAFreeBlock boot map = some (i, map')) :
    boot.freeBlocks map = i :: boot.freeBlocks map' := by
  obtain ⟨k, hk, heq⟩ := map_eq_some_iff.mp h
  obtain ⟨rfl, rfl⟩ := Prod.mk.inj heq
  have hnodup : boot.searched.Nodup := nodup_range'
  unfold Boot.freeBlocks
  -- the blocks before the one found are in use, and those behind it are other blocks
  obtain ⟨hfree, before, after, hsplit, hused⟩ := find?_eq_some_iff_append.mp hk
  rw [hsplit] at hnodup ⊢
  have hbefore : ∀ m : MemoryMap, (∀ b ∈ before, m b = map b) →
      before.filter (fun b => m b == 0) = [] := by
    intro m hm
    apply filter_eq_nil_iff.mpr
    intro b hb
    simpa [hm b hb] using hused b hb
  have hne : ∀ b ∈ before ++ after, b ≠ k := by
    intro b hb
    have hnot := (nodup_middle.mp hnodup).notMem
    rintro rfl
    exact hnot hb
  have hother : ∀ b ∈ before ++ after, setMemoryBlockUsedWhenBoot map k true b = map b :=
    fun b hb => setMemoryBlockUsedWhenBoot_ne true (hne b hb)
  rw [filter_append, filter_append, hbefore map fun _ _ => rfl,
    hbefore _ fun b hb => hother b (mem_append_left _ hb), nil_append, nil_append,
    filter_cons, if_pos hfree, filter_cons, if_neg (by simp)]
  congr 1
  apply filter_congr
  intro b hb
  rw [hother b (mem_append_right _ hb)]

/-! ## Sequences of calls -/

/-- The map together with the blocks that calls have returned and that are not yet freed. -/
structure AllocState where
  map : MemoryMap
  held : List ℕ

inductive AllocCall
  | getAFreeBlock
  | getContinuousFreeBlocks (length : ℕ)
  | free (index : ℕ)

namespace AllocCall

/-- What a call returns, as the list of the blocks, and the map that it leaves. A block that is
freed is the one that `set_memory_block_used_when_boot` is given. -/
def run (boot : Boot) (map : MemoryMap) : AllocCall → Option (List ℕ × MemoryMap)
  | getAFreeBlock =>
    (CarrotOS.getAFreeBlock boot map).map fun r => ([r.1], r.2)
  | getContinuousFreeBlocks length =>
    (CarrotOS.getContinuousFreeBlocks boot length map).map fun r =>
      (blocksFrom r.1 length, r.2)
  | free index => some ([index], setMemoryBlockUsedWhenBoot map index false)

def step (boot : Boot) (s : AllocState) (call : AllocCall) : Option AllocState :=
  (call.run boot s.map).map fun r =>
    { map := r.2
      held := match call with
        | free index => s.held.erase index
        | _ => r.1 ++ s.held }

def Ok (s : AllocState) : AllocCall → Prop
  | free index => index ∈ s.held
  | _ => True

instance (s : AllocState) : (call : AllocCall) → Decidable (call.Ok s)
  | .getAFreeBlock | .getContinuousFreeBlocks _ => inferInstanceAs (Decidable True)
  | .free index => inferInstanceAs (Decidable (index ∈ s.held))

end AllocCall

/-- The blocks handed out are apart from each other and from the reserved ones, and both are
marked in the map. -/
structure AllocState.Safe (boot : Boot) (s : AllocState) : Prop where
  nodup : s.held.Nodup
  unreserved : ∀ b ∈ s.held, boot.reservedBlocksCount ≤ b
  reserved_used : ∀ b < boot.reservedBlocksCount, s.map b ≠ 0
  held_used : ∀ b ∈ s.held, s.map b ≠ 0

theorem markReservedBlocksAsUsed_safe (boot : Boot) (map : MemoryMap) :
    AllocState.Safe boot ⟨markReservedBlocksAsUsed boot map, []⟩ where
  nodup := nodup_nil
  unreserved := by simp
  reserved_used b hb := by simp [markReservedBlocksAsUsed, markUsed_apply, hb]
  held_used := by simp

namespace AllocState.Safe

variable {s : AllocState}

theorem take (h : Safe boot s) (hnodup : blocks.Nodup) (hfree : ∀ b ∈ blocks, s.map b = 0) :
    Safe boot ⟨markUsed s.map blocks, blocks ++ s.held⟩ where
  nodup := by
    refine nodup_append.mpr ⟨hnodup, h.nodup, ?_⟩
    rintro b hb _ hheld rfl
    exact h.held_used b hheld (hfree b hb)
  unreserved b hb := by
    rcases mem_append.mp hb with hnew | hheld
    · -- a free block is not one of the reserved ones, which are all marked
      by_contra hlt
      exact h.reserved_used b (Nat.lt_of_not_le hlt) (hfree b hnew)
    · exact h.unreserved b hheld
  reserved_used b hb := by
    dsimp only
    rw [markUsed_apply]
    split_ifs
    · decide
    · exact h.reserved_used b hb
  held_used b hb := by
    dsimp only
    rw [markUsed_apply]
    split_ifs with hnew
    · decide
    · exact h.held_used b ((mem_append.mp hb).resolve_left hnew)

theorem free (h : Safe boot s) (hheld : index ∈ s.held) :
    Safe boot ⟨setMemoryBlockUsedWhenBoot s.map index false, s.held.erase index⟩ where
  nodup := h.nodup.erase index
  unreserved b hb := h.unreserved b (mem_of_mem_erase hb)
  reserved_used b hb := by
    have hne : b ≠ index := by
      rintro rfl
      exact absurd (h.unreserved b hheld) (Nat.not_le.mpr hb)
    dsimp only
    rw [setMemoryBlockUsedWhenBoot_ne false hne]
    exact h.reserved_used b hb
  held_used b hb := by
    obtain ⟨hne, hmem⟩ := h.nodup.mem_erase_iff.mp hb
    dsimp only
    rw [setMemoryBlockUsedWhenBoot_ne false hne]
    exact h.held_used b hmem

theorem zero_notMem (h : Safe boot s) (hi : i ∈ boot.searched)
    (hfree : ∀ b ∈ blocksFrom i length, s.map b = 0) : 0 ∉ blocksFrom i length := fun hmem =>
  h.reserved_used 0 (boot.reservedBlocksCount_pos hi) (hfree 0 hmem)

theorem step (h : Safe boot s) {call : AllocCall} (hok : call.Ok s) {s' : AllocState}
    (hstep : call.step boot s = some s') : Safe boot s' := by
  obtain ⟨⟨blocks, m⟩, hrun, rfl⟩ := map_eq_some_iff.mp hstep
  cases call with
  | getAFreeBlock =>
    obtain ⟨⟨i, m'⟩, hget, heq⟩ := map_eq_some_iff.mp hrun
    cases heq
    obtain ⟨-, hfree, hm⟩ := getAFreeBlock_eq_some hget
    rw [hm]
    exact h.take (nodup_singleton i) (by simpa using hfree)
  | getContinuousFreeBlocks length =>
    obtain ⟨⟨i, m'⟩, hget, heq⟩ := map_eq_some_iff.mp hrun
    cases heq
    obtain ⟨hi, hfree, hm⟩ := getContinuousFreeBlocks_eq_some hget
    have hlt : i < 2 ^ 64 :=
      Nat.lt_trans (boot.lt_total_of_mem_searched hi) (Nat.lt_trans boot.total_lt (by decide))
    rw [hm]
    exact h.take (nodup_blocksFrom hlt (h.zero_notMem hi hfree)) hfree
  | free index =>
    cases hrun
    exact h.free hok

end AllocState.Safe

theorem AllocCall.run_frame {call : AllocCall} (h : call.run boot map = some (blocks, map'))
    (hb : b ∉ blocks) : map' b = map b := by
  cases call with
  | getAFreeBlock =>
    obtain ⟨⟨i, m⟩, hget, heq⟩ := map_eq_some_iff.mp h
    cases heq
    obtain ⟨-, -, hm⟩ := getAFreeBlock_eq_some hget
    dsimp only at hm hb ⊢
    rw [hm, setMemoryBlockUsedWhenBoot_ne true (by simpa using hb)]
  | getContinuousFreeBlocks length =>
    obtain ⟨⟨i, m⟩, hget, heq⟩ := map_eq_some_iff.mp h
    cases heq
    obtain ⟨-, -, hm⟩ := getContinuousFreeBlocks_eq_some hget
    dsimp only at hm hb ⊢
    rw [hm, markUsed_apply, if_neg hb]
  | free index =>
    cases h
    exact setMemoryBlockUsedWhenBoot_ne false (by simpa using hb)

/-- **The allocator is safe.** After every sequence of calls and of frees of blocks handed out, the
outstanding blocks are distinct and outside the kernel image and the map, and each call returns
blocks that are not outstanding and changes the map only at them. -/
theorem held_blocks_of_run {boot : Boot} {map₀ : MemoryMap} {calls : List AllocCall}
    {s : AllocState}
    (hrun : Run (AllocCall.step boot) AllocCall.Ok ⟨markReservedBlocksAsUsed boot map₀, []⟩
      calls s) :
    s.held.Nodup ∧
    (∀ b ∈ s.held, boot.reservedBlocksCount ≤ b ∧
      boot.endKernel - HM + boot.totalMemoryBlocksCount ≤ 4096 * b) ∧
    ∀ (call : AllocCall) (blocks : List ℕ) (map' : MemoryMap),
      call.run boot s.map = some (blocks, map') → ∀ b ∉ blocks, map' b = s.map b := by
  have hsafe := hrun.invariant (AllocState.Safe boot) (fun _ _ _ h hok hs => h.step hok hs)
    (markReservedBlocksAsUsed_safe boot map₀)
  refine ⟨hsafe.nodup, ?_, fun call blocks map' h b hb => AllocCall.run_frame h hb⟩
  intro b hb
  have hres := hsafe.unreserved b hb
  exact ⟨hres, Nat.le_trans boot.end_le_reserved (Nat.mul_le_mul_left 4096 hres)⟩

def smallBoot : Boot :=
  ⟨HM + 4096, 8, by decide, by decide, by decide⟩

/-- A block, a run of two behind it, and the first block again after it was freed. -/
def smallCalls : List AllocCall :=
  [.getAFreeBlock, .getContinuousFreeBlocks 2, .free 2, .getAFreeBlock]

theorem held_blocks_of_run_small :
    ∃ s : AllocState, s.held = [2, 3, 4] ∧ s.held.Nodup ∧
      ∀ b ∈ s.held, smallBoot.reservedBlocksCount ≤ b := by
  have hheld : (smallCalls.foldlM
      (fun s c => if AllocCall.Ok s c then AllocCall.step smallBoot s c else none)
      ⟨markReservedBlocksAsUsed smallBoot (fun _ => 0), []⟩).map AllocState.held =
        some [2, 3, 4] := by
    decide
  obtain ⟨s, hs, hlist⟩ := map_eq_some_iff.mp hheld
  obtain ⟨hnodup, hres, -⟩ := held_blocks_of_run (Run.of_guarded hs)
  exact ⟨s, hlist, hnodup, fun b hb => (hres b hb).1⟩

/-! ## Runs at the end of the map -/

/-- The `length` blocks from `i` on are free and lie in the map, at or above the last block of the
kernel. -/
structure FreeRun (boot : Boot) (map : MemoryMap) (length i : ℕ) : Prop where
  kernel : boot.totalKernelMemBlocksCount ≤ i
  inside : i + length ≤ boot.totalMemoryBlocksCount
  free : ∀ j < length, map (i + j) = 0

/-- A search that returns has found the first free run and has marked exactly its blocks. -/
def FindsFirstRun (boot : Boot) (length : ℕ) (map : MemoryMap) : Prop :=
  ∀ i map', getContinuousFreeBlocks boot length map = some (i, map') →
    FreeRun boot map length i ∧ (∀ k, FreeRun boot map length k → i ≤ k) ∧
      ∀ b, map' b = if i ≤ b ∧ b < i + length then 1 else map b

theorem mem_blocksFrom (h : i + length ≤ boot.totalMemoryBlocksCount) :
    b ∈ blocksFrom i length ↔ i ≤ b ∧ b < i + length := by
  have htotal := boot.total_lt
  have heq : blocksFrom i length = range' i length := by
    rw [blocksFrom, range'_eq_map_range]
    refine map_congr_left fun j hj => u64_of_lt ?_
    have := mem_range.mp hj
    omega
  rw [heq, mem_range'_1]

theorem freeRun_iff (h : i + length ≤ boot.totalMemoryBlocksCount) :
    FreeRun boot map length i ↔
      boot.totalKernelMemBlocksCount ≤ i ∧ ∀ b ∈ blocksFrom i length, map b = 0 := by
  constructor
  · intro hrun
    refine ⟨hrun.kernel, fun b hb => ?_⟩
    obtain ⟨hib, hbi⟩ := (mem_blocksFrom h).mp hb
    have hfree := hrun.free (b - i) (by omega)
    rwa [Nat.add_sub_cancel' hib] at hfree
  · rintro ⟨hkernel, hfree⟩
    exact ⟨hkernel, h, fun j hj => hfree _ ((mem_blocksFrom h).mpr (by omega))⟩

theorem getContinuousFreeBlocks_le (h : getContinuousFreeBlocks boot length map = some (i, map'))
    {k : ℕ} (hk : FreeRun boot map length k) : i ≤ k := by
  obtain ⟨k', hfind, heq⟩ := map_eq_some_iff.mp h
  cases heq
  obtain ⟨-, -, hbefore⟩ := find?_range'_eq_some.mp hfind
  by_contra hlt
  have hnot := hbefore k hk.kernel (by omega)
  have hfree := ((freeRun_iff hk.inside).mp hk).2
  simp only [Bool.not_eq_true', List.all_eq_false, beq_iff_eq] at hnot
  obtain ⟨b, hb, hused⟩ := hnot
  exact hused (hfree b hb)

/-- **A run stays inside the map** exactly if there is a free run in it, or no run of zero bytes
leaves it: only the start of a run is compared with the number of blocks. -/
theorem findsFirstRun_iff (boot : Boot) (length : ℕ) (map : MemoryMap) :
    FindsFirstRun boot length map ↔ (∃ k, FreeRun boot map length k) ∨
      ∀ k ∈ boot.searched, boot.totalMemoryBlocksCount < k + length →
        ∃ b ∈ blocksFrom k length, map b ≠ 0 := by
  constructor
  · intro hfirst
    rcases hget : getContinuousFreeBlocks boot length map with - | ⟨i, map'⟩
    · refine .inr fun k hk _ => ?_
      have hused := find?_eq_none.mp (map_eq_none_iff.mp hget) k hk
      simpa using hused
    · exact .inl ⟨i, (hfirst i map' hget).1⟩
  · intro hcond i map' hget
    obtain ⟨hi, hfree, rfl⟩ := getContinuousFreeBlocks_eq_some hget
    have hinside : i + length ≤ boot.totalMemoryBlocksCount := by
      rcases hcond with ⟨k, hk⟩ | hused
      · have hle := getContinuousFreeBlocks_le hget hk
        have hkin := hk.inside
        omega
      · by_contra hout
        obtain ⟨b, hb, hne⟩ := hused i hi (by omega)
        exact hne (hfree b hb)
    refine ⟨(freeRun_iff hinside).mpr ⟨(mem_range'_1.mp hi).1, hfree⟩,
      fun k hk => getContinuousFreeBlocks_le hget hk, fun b => ?_⟩
    rw [markUsed_apply]
    exact if_congr (mem_blocksFrom hinside) rfl rfl

theorem leaves_map_of_last_free :
    ¬ FindsFirstRun smallBoot 2 fun b => if 7 ≤ b then 0 else 1 := by
  intro hfirst
  have hget : (getContinuousFreeBlocks smallBoot 2 fun b => if 7 ≤ b then 0 else 1).map Prod.fst =
      some 7 := by decide
  obtain ⟨⟨i, map'⟩, hget, rfl⟩ := map_eq_some_iff.mp hget
  have hinside := (hfirst _ _ hget).1.inside
  exact absurd hinside (by decide)

end CarrotOS
