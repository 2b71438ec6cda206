import CarrotOS.Mem.Pages

/-!
# The heap and anonymous mappings

`sys_brk` maps or unmaps the pages between the old and the new end of the heap. The new end is
compared neither with the start of the heap nor with the end of the lower half, so a call with an
argument below the heap unmaps the program under it.

`sys_mmap` looks at the first page of the range only, and maps as many pages as the length fills.
The other pages of the range may be mapped already, may lie in the upper half, and an unaligned
range may have one page more.
-/

namespace CarrotOS

open Machine Transition List Option

theorem divCeil_page (x : ℕ) : divCeil x 4096 = (x + 4095) / 4096 := by
  unfold divCeil
  split_ifs <;> omega

/-! ## The heap -/

/-- The address space of a process: the page tables, and `heap_end_addr` of its record. -/
structure Heap where
  machine : Machine
  heapEndAddr : ℕ

def pageAddrs (first count : ℕ) : List ℕ :=
  (range' first count).map (· * 4096)

def sysBrk (boot : Boot) (pid newHeapEndAddr : ℕ) (s : Heap) : Option (ℕ × Heap) :=
  let current := divCeil s.heapEndAddr 4096
  let new := divCeil newHeapEndAddr 4096
  if newHeapEndAddr > s.heapEndAddr then
    (mapPages boot pid (pageAddrs current (new - current)) s.machine).map fun machine =>
      (newHeapEndAddr, ⟨machine, newHeapEndAddr⟩)
  else
    -- the second loop runs downwards
    some (newHeapEndAddr,
      ⟨unmapPages pid (pageAddrs new (current - new)).reverse s.machine, newHeapEndAddr⟩)

def brkStep (boot : Boot) (pid : ℕ) (s : Heap) (arg : ℕ) : Option Heap :=
  (sysBrk boot pid arg s).map Prod.snd

/-- Up to the largest break in use, the pages from the start of the heap on that are mapped are
those below its end, and the pages below the heap have the frames that they had. -/
structure HeapExact (pid heapStart limit : ℕ) (s₀ : Machine) (s : Heap) : Prop where
  above : ∀ v, heapStart ≤ v → v / 4096 < divCeil limit 4096 →
    (isPaged s.machine pid v = true ↔ v / 4096 < divCeil s.heapEndAddr 4096)
  below : ∀ v < heapStart, isPaged s₀ pid v = true → s.machine.frame pid v = s₀.frame pid v

/-- The argument lies between the start of the heap and the largest break, and before a call that
maps pages the blocks of the page tables are marked as used. -/
def BrkOk (pid heapStart limit : ℕ) (s : Heap) (arg : ℕ) : Prop :=
  heapStart ≤ arg ∧ arg ≤ limit ∧ (s.heapEndAddr < arg → s.machine.Marked pid)

variable {boot : Boot} {pid : ℕ}

theorem exists_mem_pageAddrs {first count w : ℕ} :
    (∃ v ∈ pageAddrs first count, w / 4096 = v / 4096) ↔
      first ≤ w / 4096 ∧ w / 4096 < first + count := by
  simp [pageAddrs, mem_range'_1]

/-- What the calls keep. -/
structure BrkInv (pid heapStart limit : ℕ) (s₀ : Machine) (s : Heap) : Prop
    extends HeapExact pid heapStart limit s₀ s where
  tree : s.machine.TreeOk pid
  start_le : heapStart ≤ s.heapEndAddr
  le_limit : s.heapEndAddr ≤ limit

/-- One call keeps the heap exact. -/
theorem BrkInv.step (hboot : boot.totalMemoryBlocksCount ≤ 2 ^ 40) {heapStart limit arg : ℕ}
    {s0 : Machine} {s s' : Heap} (halign : heapStart % 4096 = 0) (hlimit : limit ≤ HM)
    (h : BrkInv pid heapStart limit s0 s) (hok : BrkOk pid heapStart limit s arg)
    (hstep : brkStep boot pid s arg = some s') : BrkInv pid heapStart limit s0 s' := by
  obtain ⟨hstart, harg, hmarked⟩ := hok
  have hs := h.start_le
  have hl := h.le_limit
  -- the pages in question lie in the lower half
  have hlow : ∀ n, n < divCeil limit 4096 → n * 4096 < HM := by
    intro n hn
    rw [divCeil_page] at hn
    omega
  have hpage : ∀ v, v / 4096 < divCeil limit 4096 → v < HM := by
    intro v hv
    have hmul := hlow _ hv
    unfold HM at hmul ⊢
    omega
  have hpages : ∀ a b, b ≤ divCeil limit 4096 → ∀ v ∈ pageAddrs a (b - a), v < HM := by
    intro a b hb v hv
    obtain ⟨n, hn, rfl⟩ := mem_map.mp hv
    obtain ⟨han, hnb⟩ := mem_range'_1.mp hn
    exact hlow n (by omega)
  obtain ⟨⟨r, t⟩, hcall, rfl⟩ := map_eq_some_iff.mp hstep
  unfold sysBrk at hcall
  split_ifs at hcall with hgt
  · obtain ⟨m, hmap, heq⟩ := map_eq_some_iff.mp hcall
    cases heq
    obtain ⟨htree, -, hpaged, hframe⟩ := mapPages_spec hboot
      (hpages _ _ (by simp only [divCeil_page]; omega)) h.tree (hmarked hgt) hmap
    refine ⟨⟨?_, ?_⟩, htree, hstart, harg⟩
    · intro v hv hvl
      rw [hpaged v (hpage v hvl), exists_mem_pageAddrs, h.above v hv hvl]
      simp only [divCeil_page]
      omega
    · intro v hv hmapped
      rw [← h.below v hv hmapped]
      refine hframe v (by omega) ?_
      by_contra hmem
      push Not at hmem
      have hin := exists_mem_pageAddrs.mp hmem
      rw [divCeil_page] at hin
      omega
  · cases hcall
    have hvs : ∀ v ∈ (pageAddrs (divCeil arg 4096)
        (divCeil s.heapEndAddr 4096 - divCeil arg 4096)).reverse, v < HM := fun v hv =>
      hpages _ _ (by simp only [divCeil_page]; omega) v (mem_reverse.mp hv)
    obtain ⟨htree, hpaged, hframe⟩ := unmapPages_spec hvs h.tree
    have hmem : ∀ w, (∀ v ∈ (pageAddrs (divCeil arg 4096)
        (divCeil s.heapEndAddr 4096 - divCeil arg 4096)).reverse, w / 4096 ≠ v / 4096) ↔
        ¬ (divCeil arg 4096 ≤ w / 4096 ∧ w / 4096 < divCeil arg 4096 +
          (divCeil s.heapEndAddr 4096 - divCeil arg 4096)) := by
      intro w
      rw [← exists_mem_pageAddrs]
      simp
    refine ⟨⟨?_, ?_⟩, htree, hstart, harg⟩
    · intro v hv hvl
      rw [hpaged v (hpage v hvl), hmem, h.above v hv hvl]
      simp only [divCeil_page]
      omega
    · intro v hv hmapped
      rw [← h.below v hv hmapped]
      refine hframe v (by omega) ((hmem v).mpr ?_)
      rw [divCeil_page]
      omega

/-- **The heap is what its end says**, as long as no call asks for an end below its start or in the
upper half, or maps pages while a block of the page tables is not marked. -/
theorem heapExact_of_run {boot : Boot} {pid heapStart limit : ℕ} {s₀ : Machine} {s : Heap}
    {args : List ℕ} (hboot : boot.totalMemoryBlocksCount ≤ 2 ^ 40) (htree : s₀.TreeOk pid)
    (halign : heapStart % 4096 = 0) (hstart : heapStart ≤ limit) (hlimit : limit ≤ HM)
    (hfree : ∀ v, heapStart ≤ v → v / 4096 < divCeil limit 4096 → isPaged s₀ pid v = false)
    (hrun : Run (brkStep boot pid) (BrkOk pid heapStart limit) ⟨s₀, heapStart⟩ args s) :
    HeapExact pid heapStart limit s₀ s := by
  have h₀ : BrkInv pid heapStart limit s₀ ⟨s₀, heapStart⟩ := by
    refine ⟨⟨fun v hv hvl => ?_, fun _ _ _ => rfl⟩, htree, le_rfl, hstart⟩
    rw [hfree v hv hvl, divCeil_page]
    simp only [Bool.false_eq_true, false_iff]
    omega
  exact (hrun.invariant (BrkInv pid heapStart limit s₀)
    (fun _ _ _ h hok hstep => h.step hboot halign hlimit hok hstep) h₀).toHeapExact

theorem isPaged_smallMachine (v : ℕ) : isPaged smallMachine 1 v = false := rfl

theorem heapExact_of_run_small : ∃ s,
    Run (brkStep smallBoot 1) (BrkOk 1 0x1000 0x2000) ⟨smallMachine, 0x1000⟩ [0x1800] s ∧
      HeapExact 1 0x1000 0x2000 smallMachine s := by
  obtain ⟨s, hs⟩ : ∃ s, brkStep smallBoot 1 ⟨smallMachine, 0x1000⟩ 0x1800 = some s :=
    isSome_iff_exists.mp (by decide)
  have hrun : Run (brkStep smallBoot 1) (BrkOk 1 0x1000 0x2000) ⟨smallMachine, 0x1000⟩ [0x1800] s :=
    .snoc (.nil _) ⟨by decide, by decide, fun _ => smallMachine_marked⟩ hs
  exact ⟨s, hrun, heapExact_of_run (by decide) (treeOk_of_empty smallMachine_empty) (by decide)
    (by decide) (by decide) (fun v _ _ => isPaged_smallMachine v) hrun⟩

/-- A program with one page below its heap asks for the end of the heap. The page is unmapped. -/
theorem brk_unmaps_program : ∃ s₀ s, s₀.TreeOk 1 ∧ s₀.Marked 1 ∧
    (∀ v < HM, 0x2000 ≤ v → isPaged s₀ 1 v = false) ∧
    Run (brkStep smallBoot 1) (fun _ arg => arg < 2 ^ 64) ⟨s₀, 0x2000⟩ [0] s ∧
      ¬ HeapExact 1 0x2000 0x2000 s₀ s := by
  obtain ⟨s₀, hmap, hbefore, s, hs, hafter⟩ : ∃ m ∈ mapPages smallBoot 1 [0x1000] smallMachine,
      isPaged m 1 0x1000 = true ∧ ∃ s ∈ brkStep smallBoot 1 ⟨m, 0x2000⟩ 0,
        isPaged s.machine 1 0x1000 = false := by
    decide +kernel
  obtain ⟨htree, hmarked, hpaged, -⟩ := mapPages_spec (by decide) (by decide)
    (treeOk_of_empty smallMachine_empty) smallMachine_marked hmap
  refine ⟨s₀, s, htree, hmarked, ?_, .snoc (.nil _) (by decide) hs, fun h => ?_⟩
  · intro v hv hle
    rw [← Bool.not_eq_true, hpaged v hv, isPaged_smallMachine]
    simp only [mem_singleton, exists_eq_left, Bool.false_eq_true, or_false]
    omega
  · rw [isPaged_eq, h.below 0x1000 (by decide) hbefore, ← isPaged_eq, hbefore] at hafter
    cases hafter

/-! ## Anonymous mappings -/

/-- The loop of `find_free_virtual_region` over the first page, with what it looks for. -/
def findRegion (flag : ℕ → Bool) : ℕ → ℕ → ℕ
  | 0, _ => 0
  | n + 1, i => if flag i then i * 4096 else findRegion flag n (i + 1)

def findFreeVirtualRegion (s : Machine) (pid length : ℕ) : ℕ :=
  findRegion
    (fun i => (range (divCeil length 4096)).all fun j => !isPaged s pid ((i + j) * 4096))
    (HM / 4096 - 2) 1

/-- `sys_mmap` once the address is chosen. Shared mappings and mappings of a file are not
followed. -/
def mmapAt (boot : Boot) (pid addr length flags : ℕ) (s : Machine) :
    Option (Except ℕ ℕ × Machine) :=
  -- `-EINVAL`
  if isPaged s pid addr then some (.error 22, s)
  else if flags &&& 0x01 ≠ 0 ∨ flags &&& 0x20 = 0 then none
  else
    (mapPages boot pid ((range (divCeil length 4096)).map fun i => addr + i * 4096) s).map
      fun s => (.ok addr, s)

def sysMmap (boot : Boot) (pid addr length flags : ℕ) (s : Machine) :
    Option (Except ℕ ℕ × Machine) :=
  mmapAt boot pid (if addr = 0 then findFreeVirtualRegion s pid length else addr) length flags s

/-- A call fails and changes nothing, or the pages of the range lie in the lower half, were not
mapped and are mapped, and no other page is touched. -/
def MapsRange (pid length : ℕ) (s s' : Machine) : Except ℕ ℕ → Prop
  | .error e => e = 22 ∧ ∀ v, s'.frame pid v = s.frame pid v
  | .ok a =>
    (∀ v, a ≤ v → v < a + length →
      v < HM ∧ isPaged s pid v = false ∧ isPaged s' pid v = true) ∧
    ∀ w < HM, (∀ v, a ≤ v → v < a + length → w / 4096 ≠ v / 4096) →
      s'.frame pid w = s.frame pid w

/-- The first page of the range is mapped, or none of its pages is, they lie in the lower half, and
they are as many as the length fills. -/
def Fits (s : Machine) (pid a length : ℕ) : Prop :=
  isPaged s pid a = true ∨
    (∀ v, a ≤ v → v < a + length → v < HM ∧ isPaged s pid v = false) ∧
      a % 4096 + length ≤ divCeil length 4096 * 4096

/-- The range fits. For the address 0, there is a free range behind the first page, or the range at
the address 0 itself fits. -/
def Mappable (s : Machine) (pid addr length : ℕ) : Prop :=
  if addr = 0 then
    (∃ i, 1 ≤ i ∧ i < HM / 4096 - 1 ∧
      ∀ v, i * 4096 ≤ v → v < i * 4096 + length → isPaged s pid v = false) ∨ Fits s pid 0 length
  else Fits s pid addr length

variable {s s' : Machine} {length : ℕ}

theorem isPaged_page (v : ℕ) : isPaged s pid (v / 4096 * 4096) = isPaged s pid v := by
  have hpath : pagePath (v / 4096 * 4096) = pagePath v := by
    simp only [pagePath, cons.injEq, Fin.ext_iff, tableIndex_val, and_true]
    omega
  rw [isPaged_eq, isPaged_eq, frame, frame, hpath]

theorem findRegion_cases (flag : ℕ → Bool) (n i : ℕ) :
    (∃ k, i ≤ k ∧ k < i + n ∧ flag k = true ∧ findRegion flag n i = k * 4096) ∨
      (∀ k, i ≤ k → k < i + n → flag k = false) ∧ findRegion flag n i = 0 := by
  induction n generalizing i with
  | zero => exact .inr ⟨fun k _ _ => by omega, rfl⟩
  | succ n ih =>
    unfold findRegion
    split_ifs with hi
    · exact .inl ⟨i, le_rfl, by omega, hi, rfl⟩
    · refine (ih (i + 1)).imp ?_ ?_
      · rintro ⟨k, hk, hkn, hflag⟩
        exact ⟨k, by omega, by omega, hflag⟩
      · rintro ⟨hnone, hzero⟩
        refine ⟨fun k hk hkn => ?_, hzero⟩
        rcases Nat.eq_or_lt_of_le hk with rfl | hlt
        · exact Bool.eq_false_of_not_eq_true hi
        · exact hnone k hlt (by omega)

theorem region_free_iff {i : ℕ} :
    ((List.range (divCeil length 4096)).all fun j => !isPaged s pid ((i + j) * 4096)) = true ↔
      ∀ v, i * 4096 ≤ v → v < i * 4096 + length → isPaged s pid v = false := by
  simp only [List.all_eq_true, mem_range, divCeil_page, Bool.not_eq_true']
  constructor
  · intro h v hv hlt
    have hpage := h (v / 4096 - i) (by omega)
    rwa [show i + (v / 4096 - i) = v / 4096 by omega, isPaged_page] at hpage
  · intro h j hj
    exact h _ (by omega) (by omega)

section

variable (hboot : boot.totalMemoryBlocksCount ≤ 2 ^ 40) (hok : s.TreeOk pid)
  (hmarked : s.Marked pid) (hlen : 0 < length)
include hboot hok hmarked hlen

/-- A call that maps pages. -/
theorem mapsRange_of_mapPages {a : ℕ} (hfirst : ¬ isPaged s pid a = true)
    (h : mapPages boot pid ((range (divCeil length 4096)).map fun i => a + i * 4096) s =
      some s') :
    MapsRange pid length s s' (.ok a) ↔ Fits s pid a length := by
  generalize hpages : (range (divCeil length 4096)).map (fun i => a + i * 4096) = pages at h
  have hbyte : ∀ x ∈ pages, a ≤ x ∧ x < a + length := by
    intro x hx
    rw [← hpages] at hx
    obtain ⟨i, hi, rfl⟩ := mem_map.mp hx
    rw [mem_range, divCeil_page] at hi
    omega
  have hmem : ∀ w, (∃ x ∈ pages, w / 4096 = x / 4096) ↔
      a / 4096 ≤ w / 4096 ∧ w / 4096 < a / 4096 + divCeil length 4096 := by
    intro w
    simp only [← hpages, List.mem_map, mem_range, exists_exists_and_eq_and]
    constructor
    · rintro ⟨i, hi, hw⟩
      omega
    · rintro ⟨hle, hlt⟩
      exact ⟨w / 4096 - a / 4096, by omega, by omega⟩
  constructor
  · rintro ⟨hrange, -⟩
    have hlow : ∀ x ∈ pages, x < HM := fun x hx => (hrange x (hbyte x hx).1 (hbyte x hx).2).1
    obtain ⟨-, -, hpaged, -⟩ := mapPages_spec hboot hlow hok hmarked h
    refine .inr ⟨fun v hv hlt => ⟨(hrange v hv hlt).1, (hrange v hv hlt).2.1⟩, ?_⟩
    -- the last byte lies in one of the pages
    obtain ⟨hlast, hold, hnew⟩ := hrange (a + length - 1) (by omega) (by omega)
    have hin := (hmem _).mp (((hpaged _ hlast).mp hnew).resolve_right (by simp [hold]))
    omega
  · intro hfits
    obtain ⟨hrange, hcount⟩ := hfits.resolve_left hfirst
    have hlow : ∀ x ∈ pages, x < HM := fun x hx => (hrange x (hbyte x hx).1 (hbyte x hx).2).1
    obtain ⟨-, -, hpaged, hframe⟩ := mapPages_spec hboot hlow hok hmarked h
    refine ⟨fun v hv hlt => ?_, fun w hw hne => ?_⟩
    · obtain ⟨hvlow, hold⟩ := hrange v hv hlt
      refine ⟨hvlow, hold, (hpaged v hvlow).mpr (.inl ((hmem v).mpr ?_))⟩
      omega
    · exact hframe w hw fun x hx => hne x (hbyte x hx).1 (hbyte x hx).2

theorem mmapAt_iff {a flags : ℕ} {r : Except ℕ ℕ}
    (h : mmapAt boot pid a length flags s = some (r, s')) :
    MapsRange pid length s s' r ↔ Fits s pid a length := by
  unfold mmapAt at h
  split_ifs at h with hfirst hflags
  · cases h
    exact iff_of_true ⟨rfl, fun _ => rfl⟩ (.inl hfirst)
  · obtain ⟨m, hmap, heq⟩ := map_eq_some_iff.mp h
    cases heq
    exact mapsRange_of_mapPages hboot hok hmarked hlen hfirst hmap

end

/-- **A mapping takes pages that were free exactly when the range fits.** A call without an address
finds a free range if there is one behind the first page, and else maps at the address 0. -/
theorem mapsRange_iff {boot : Boot} {pid addr length flags : ℕ} {s s' : Machine} {r : Except ℕ ℕ}
    (hboot : boot.totalMemoryBlocksCount ≤ 2 ^ 40) (hok : s.TreeOk pid) (hmarked : s.Marked pid)
    (hkernel : isPaged s pid HM = true) (hlen : 0 < length)
    (h : sysMmap boot pid addr length flags s = some (r, s')) :
    MapsRange pid length s s' r ↔ Mappable s pid addr length := by
  unfold sysMmap at h
  unfold Mappable
  split_ifs at h ⊢ with haddr
  · unfold findFreeVirtualRegion at h
    rcases findRegion_cases (fun i => (range (divCeil length 4096)).all fun j =>
      !isPaged s pid ((i + j) * 4096)) (HM / 4096 - 2) 1 with
      ⟨k, hk, hkn, hflag, heq⟩ | ⟨hnone, heq⟩
    · rw [heq] at h
      have hfree := region_free_iff.mp hflag
      have hkHM : k * 4096 ≤ HM := by
        omega
      rw [mmapAt_iff hboot hok hmarked hlen h]
      refine iff_of_true (.inr ⟨fun v hv hlt => ⟨?_, hfree v hv hlt⟩, ?_⟩)
        (.inl ⟨k, hk, by omega, hfree⟩)
      · -- the page that is mapped in the upper half stops the range
        by_contra hge
        have hHM := hfree HM hkHM (by omega)
        rw [hkernel] at hHM
        cases hHM
      · rw [divCeil_page]
        omega
    · rw [heq] at h
      rw [mmapAt_iff hboot hok hmarked hlen h]
      refine ⟨.inr, fun hor => hor.resolve_left ?_⟩
      rintro ⟨i, hi, hlt, hfree⟩
      have hflag := hnone i hi (by omega)
      rw [region_free_iff.mpr hfree] at hflag
      cases hflag
  · exact mmapAt_iff hboot hok hmarked hlen h

/-- Eight blocks, the first three in use; the third one is the level 4 table of a process with a
page at the start of the upper half. -/
def kernelMachine : Machine where
  memoryMap b := if b < 3 then 1 else 0
  block b i := if b = 2 ∧ i.val = 128 ∨ b = 8 ∧ i.val = 0 then 8 * 4096 + 7 else 0
  processesCr3 _ := 2

theorem kernelMachine_empty (j : Fin 512) (hj : j.val < 128) :
    kernelMachine.block (kernelMachine.processesCr3 1) j = 0 :=
  if_neg (by simp [kernelMachine, hj.ne])

theorem kernelMachine_marked : kernelMachine.Marked 1 := by
  intro b huses
  rw [eq_cr3_of_uses kernelMachine_empty huses]
  decide

theorem kernelMachine_mmap (length : ℕ)
    (h : (mapPages smallBoot 1 [0x2000] kernelMachine).bind (fun s =>
      (sysMmap smallBoot 1 0x1000 length 0x22 s).map fun _ =>
        (isPaged s 1 HM, isPaged s 1 0x1000, isPaged s 1 0x2000)) = some (true, false, true)) :
    ∃ s s' r, (s.TreeOk 1 ∧ s.Marked 1) ∧ (isPaged s 1 HM, isPaged s 1 0x1000, isPaged s 1 0x2000) =
      (true, false, true) ∧ sysMmap smallBoot 1 0x1000 length 0x22 s = some (r, s') := by
  obtain ⟨s, hmap, hcall⟩ := bind_eq_some_iff.mp h
  obtain ⟨⟨r, s'⟩, hs', hpages⟩ := map_eq_some_iff.mp hcall
  obtain ⟨htree, hmarked, -⟩ := mapPages_spec (by decide) (by decide)
    (treeOk_of_empty kernelMachine_empty) kernelMachine_marked hmap
  exact ⟨s, s', r, ⟨htree, hmarked⟩, hpages, hs'⟩

theorem mapsRange_iff_free : ∃ s s' r, isPaged s 1 0x2000 = true ∧
    sysMmap smallBoot 1 0x1000 0x1000 0x22 s = some (r, s') ∧ MapsRange 1 0x1000 s s' r := by
  obtain ⟨s, s', r, ⟨htree, hmarked⟩, hpages, h⟩ := kernelMachine_mmap 0x1000 (by decide +kernel)
  simp only [Prod.mk.injEq] at hpages
  obtain ⟨hHM, hfirst, hsecond⟩ := hpages
  refine ⟨s, s', r, hsecond, h,
    (mapsRange_iff (by decide) htree hmarked hHM (by decide) h).mpr (.inr ⟨?_, by decide⟩)⟩
  intro v hv hlt
  refine ⟨hlt.trans (by decide), ?_⟩
  rw [← isPaged_page, show v / 4096 = 1 by omega]
  exact hfirst

theorem mmap_aliases_page : ∃ s s' r, (s.TreeOk 1 ∧ s.Marked 1) ∧ isPaged s 1 HM = true ∧
    sysMmap smallBoot 1 0x1000 0x2000 0x22 s = some (r, s') ∧ ¬ MapsRange 1 0x2000 s s' r := by
  obtain ⟨s, s', r, hs, hpages, h⟩ := kernelMachine_mmap 0x2000 (by decide +kernel)
  simp only [Prod.mk.injEq] at hpages
  obtain ⟨hHM, hfirst, hsecond⟩ := hpages
  refine ⟨s, s', r, hs, hHM, h, ?_⟩
  have hcall : mmapAt smallBoot 1 0x1000 0x2000 0x22 s = some (r, s') := h
  rw [mmapAt_iff (by decide) hs.1 hs.2 (by decide) hcall]
  rintro (hpaged | ⟨hrange, -⟩)
  · simp [hfirst] at hpaged
  · simpa [hsecond] using hrange 0x2000 (by decide) (by decide)

end CarrotOS
