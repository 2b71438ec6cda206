import CarrotOS.Lib.RadixTree
import CarrotOS.Mem.Blocks
import Mathlib.Data.Fintype.Basic
import Mathlib.Tactic.Ring

/-!
# The page tables of a process

The low half of a process's address space is a tree of four levels of tables, each a block of 512
lines. `increase_paging_of_process_with_virt_addr` creates the tables on the way to a page and takes
a frame for it; `decrease_paging_of_process_with_virt_addr` clears the line of a page and, from the
bottom up, the lines of the tables that it leaves empty. Physical memory is a store of blocks and
the tree is a radix tree in it.

A pointer to a table is the number of its block, and `memory_map` is an array of its own. The high
half of the level 4 table is shared by all processes and left alone.
-/

namespace CarrotOS

open Word Transition RadixTree Function List Option

variable {b junk m phys t v : ℕ} {path : List (Fin 512)} {r : Option ℕ}

/-! ## The source -/

/-- Physical memory as the paging code sees it. -/
structure Machine where
  memoryMap : MemoryMap
  /-- The 512 words of each block. -/
  block : ℕ → Fin 512 → ℕ
  /-- `processes_cr3_ptr`, as the block of the level 4 table. -/
  processesCr3 : ℕ → ℕ

def getAFreeBlockAddr (boot : Boot) (map : MemoryMap) : Option (ℕ × MemoryMap) :=
  (getAFreeBlock boot map).map fun r => (u64 (r.1 * 4096 + HM), r.2)

def blockAt (addr : ℕ) : ℕ :=
  (addr - HM) / 4096

def pageLineToAddr (pageline : ℕ) : ℕ :=
  (pageline &&& 0x000FFFFFFFFFF000) + HM

def pageLineToBlock (pageline : ℕ) : ℕ :=
  blockAt (pageLineToAddr pageline)

/-- The line for a block: its physical address with `PTE_PRESENT`, `PTE_RW` and `PTE_USER`. -/
def newLine (blockAddr : ℕ) : ℕ :=
  (blockAddr - HM) ||| 1 ||| 2 ||| 4

def tableIndex (virtAddr shift : ℕ) : Fin 512 :=
  ⟨virtAddr >>> shift &&& 0x1FF, Nat.and_lt_two_pow _ (n := 9) (by decide)⟩

def pagePath (virtAddr : ℕ) : List (Fin 512) :=
  [tableIndex virtAddr 39, tableIndex virtAddr 30, tableIndex virtAddr 21, tableIndex virtAddr 12]

namespace Machine

def eraseBlock (s : Machine) (b : ℕ) : Machine :=
  { s with block := update s.block b fun _ => 0 }

def setLine (s : Machine) (table : ℕ) (i : Fin 512) (line : ℕ) : Machine :=
  { s with block := setEntry s.block table i line }

def blockEmpty (s : Machine) (b : ℕ) : Bool :=
  decide (∀ i, s.block b i = 0)

theorem blockEmpty_iff (s : Machine) (b : ℕ) : s.blockEmpty b = true ↔ ∀ i, s.block b i = 0 :=
  decide_eq_true_iff

/-- A line is given up: it is passed to `set_memory_block_used_when_boot` and cleared. -/
def dropLine (s : Machine) (table : ℕ) (i : Fin 512) : Machine :=
  { s with memoryMap := setMemoryBlockUsedWhenBoot s.memoryMap (s.block table i) false }.setLine
    table i 0

end Machine

/-- The table behind a line, created when the line is zero: one of the three steps down of
`increase_paging_of_process_with_virt_addr`. -/
def nextTable (boot : Boot) (s : Machine) (table : ℕ) (i : Fin 512) : Option (ℕ × Machine) :=
  if s.block table i = 0 then
    (getAFreeBlockAddr boot s.memoryMap).map fun (newBlockAddr, map) =>
      (blockAt newBlockAddr,
        ({ s with memoryMap := map }.eraseBlock (blockAt newBlockAddr)).setLine table i
          (newLine newBlockAddr))
  else some (pageLineToBlock (s.block table i), s)

/-- The last step of `increase_paging_of_process_with_virt_addr`: a frame for the page, unless it
has one; then the result is a variable that was never set. -/
def newFrame (boot : Boot) (junk : ℕ) (s : Machine) (table : ℕ) (i : Fin 512) :
    Option (ℕ × Machine) :=
  if s.block table i = 0 then
    (getAFreeBlockAddr boot s.memoryMap).map fun (newBlockAddr, map) =>
      (newBlockAddr - HM, { s with memoryMap := map }.setLine table i (newLine newBlockAddr))
  else some (junk, s)

/-- `increase_paging_of_process_with_virt_addr`: the physical address of the frame and the new
state. Without a free block the kernel panics. -/
def increasePagingOfProcessWithVirtAddr (boot : Boot) (junk : ℕ) (s : Machine)
    (pid virtAddr : ℕ) : Option (ℕ × Machine) := do
  let (l3, s) ← nextTable boot s (s.processesCr3 pid) (tableIndex virtAddr 39)
  let (l2, s) ← nextTable boot s l3 (tableIndex virtAddr 30)
  let (l1, s) ← nextTable boot s l2 (tableIndex virtAddr 21)
  newFrame boot junk s l1 (tableIndex virtAddr 12)

/-- The second half of `decrease_paging_of_process_with_virt_addr`: the line of the page is
cleared and, as long as a table is left empty, the line of that table. -/
def clearPage (s : Machine) (l4 l3 l2 l1 virtAddr : ℕ) : Machine :=
  let s := s.dropLine l1 (tableIndex virtAddr 12)
  if !s.blockEmpty l1 then s else
  let s := s.dropLine l2 (tableIndex virtAddr 21)
  if !s.blockEmpty l2 then s else
  let s := s.dropLine l3 (tableIndex virtAddr 30)
  if !s.blockEmpty l3 then s else
  s.dropLine l4 (tableIndex virtAddr 39)

def decreasePagingOfProcessWithVirtAddr (s : Machine) (pid virtAddr : ℕ) : Machine :=
  let l4 := s.processesCr3 pid
  if s.block l4 (tableIndex virtAddr 39) = 0 then s else
  let l3 := pageLineToBlock (s.block l4 (tableIndex virtAddr 39))
  if s.block l3 (tableIndex virtAddr 30) = 0 then s else
  let l2 := pageLineToBlock (s.block l3 (tableIndex virtAddr 30))
  if s.block l2 (tableIndex virtAddr 21) = 0 then s else
  let l1 := pageLineToBlock (s.block l2 (tableIndex virtAddr 21))
  if s.block l1 (tableIndex virtAddr 12) = 0 then s else
  clearPage s l4 l3 l2 l1 virtAddr

def isPaged (s : Machine) (pid virtAddr : ℕ) : Bool :=
  let tmp := s.block (s.processesCr3 pid) (tableIndex virtAddr 39)
  if tmp = 0 then false else
  let tmp := s.block (pageLineToBlock tmp) (tableIndex virtAddr 30)
  if tmp = 0 then false else
  let tmp := s.block (pageLineToBlock tmp) (tableIndex virtAddr 21)
  if tmp = 0 then false else
  let tmp := s.block (pageLineToBlock tmp) (tableIndex virtAddr 12)
  if tmp = 0 then false else true

/-! ## Addresses and lines -/

theorem tableIndex_val (v shift : ℕ) : (tableIndex v shift : ℕ) = v / 2 ^ shift % 512 := by
  rw [← Nat.shiftRight_eq_div_pow]
  exact Nat.and_two_pow_sub_one_eq_mod _ 9

theorem pagePath_inj {w : ℕ} (hv : v < HM) (hw : w < HM) :
    pagePath v = pagePath w ↔ v / 4096 = w / 4096 := by
  unfold HM at hv hw
  simp only [pagePath, cons.injEq, Fin.ext_iff, tableIndex_val, and_true]
  omega

theorem tableIndex_lt (hv : v < HM) : (tableIndex v 39 : ℕ) < 128 := by
  rw [tableIndex_val]
  unfold HM at hv
  omega

theorem pageLineToBlock_eq (line : ℕ) : pageLineToBlock line = line / 2 ^ 12 % 2 ^ 40 := by
  rw [pageLineToBlock, pageLineToAddr, blockAt, Nat.add_sub_cancel]
  change (line &&& 0x000FFFFFFFFFF000) / 2 ^ 12 = _
  rw [← Nat.shiftRight_eq_div_pow, Nat.shiftRight_and_distrib, Nat.shiftRight_eq_div_pow]
  exact Nat.and_two_pow_sub_one_eq_mod _ 40

theorem pageLineToBlock_line (hb : b < 2 ^ 40) : pageLineToBlock (b * 4096 + 7) = b := by
  rw [pageLineToBlock_eq]
  omega

theorem getAFreeBlockAddr_eq_some {boot : Boot} (hboot : boot.totalMemoryBlocksCount ≤ 2 ^ 40)
    {map map' : MemoryMap} {addr : ℕ} (h : getAFreeBlockAddr boot map = some (addr, map')) :
    ∃ b < 2 ^ 40, getAFreeBlock boot map = some (b, map') ∧ addr - HM = b * 4096 ∧
      blockAt addr = b ∧ newLine addr = b * 4096 + 7 := by
  obtain ⟨⟨b, m⟩, hget, heq⟩ := map_eq_some_iff.mp h
  obtain ⟨haddr, rfl⟩ := Prod.mk.inj heq
  have hb : b < 2 ^ 40 :=
    (boot.lt_total_of_mem_searched (getAFreeBlock_eq_some hget).1).trans_le hboot
  have hsub : addr - HM = b * 4096 := by
    rw [← haddr, u64_of_lt, Nat.add_sub_cancel]
    unfold HM
    omega
  refine ⟨b, hb, hget, hsub, ?_, ?_⟩
  · rw [blockAt, hsub, Nat.mul_div_cancel _ (by decide)]
  · rw [newLine, hsub, Nat.or_assoc, Nat.or_assoc, Nat.mul_comm]
    exact (Nat.two_pow_add_eq_or_of_lt (i := 12) (by decide) b).symm

/-! ## The tree -/

/-- The paths of at most `n` indices that begin in the low half of the level 4 table. -/
def lowPaths (n : ℕ) : Set (List (Fin 512)) :=
  {p | p.length ≤ n ∧ ∀ i ∈ p.head?, (i : ℕ) < 128}

variable {n : ℕ} {p q : List (Fin 512)} {i : Fin 512}

theorem lowPaths_mono (h : m ≤ n) (hp : p ∈ lowPaths m) : p ∈ lowPaths n :=
  ⟨hp.1.trans h, hp.2⟩

/-- The paths of at most `d` indices whose first one is allowed. -/
def pathsFrom (first : Fin 512 → Prop) (d : ℕ) : Set (List (Fin 512)) :=
  {r | r.length ≤ d ∧ ∀ i ∈ r.head?, first i}

theorem closed_pathsFrom (first : Fin 512 → Prop) (d : ℕ) : Closed (pathsFrom first d) := by
  rintro p i ⟨hlen, hfirst⟩
  constructor
  · simp only [length_append, length_singleton] at hlen
    omega
  · intro j hj
    exact hfirst j (mem_head?_append_of_mem_head? hj)

theorem closed_lowPaths (n : ℕ) : Closed (lowPaths n) :=
  closed_pathsFrom _ n

theorem mem_lowPaths_of_snoc {r : List (Fin 512)} {j : Fin 512} (h : r ++ [j] ∈ lowPaths (n + 1)) :
    r ∈ lowPaths n := by
  refine ⟨?_, (closed_lowPaths (n + 1) r j h).2⟩
  have hlen := h.1
  rw [length_append, length_singleton] at hlen
  omega

theorem mem_lowPaths_of_initial (hp : p <+: q) (hq : q ∈ lowPaths n) : p ∈ lowPaths n := by
  obtain ⟨r, rfl⟩ := hp
  exact (closed_lowPaths n).of_append hq

theorem mem_lowPaths_of_append (h : p ++ i :: path ∈ lowPaths 4) :
    p ∈ lowPaths 3 ∧ p ++ [i] ∈ lowPaths 4 := by
  have hp : p ++ [i] ∈ lowPaths 4 := mem_lowPaths_of_initial (by simp) h
  exact ⟨mem_lowPaths_of_snoc hp, hp⟩

theorem eq_nil_or_snoc_of_mem_lowPaths (hq : q ∈ lowPaths (n + 1)) :
    q = [] ∨ ∃ r ∈ lowPaths n, ∃ j, q = r ++ [j] := by
  rcases eq_nil_or_concat q with rfl | ⟨r, j, rfl⟩
  · exact .inl rfl
  · rw [concat_eq_append] at hq ⊢
    exact .inr ⟨r, mem_lowPaths_of_snoc hq, j, rfl⟩

theorem pagePath_mem (hv : v < HM) : pagePath v ∈ lowPaths 4 := by
  refine ⟨le_rfl, ?_⟩
  intro i hi
  obtain rfl : tableIndex v 39 = i := by simpa [pagePath] using hi
  exact tableIndex_lt hv

namespace Machine

variable (s : Machine) (pid : ℕ)

/-- The block at the end of a path: a table, or behind four indices a frame. -/
def node (q : List (Fin 512)) : Option ℕ :=
  locate pageLineToBlock s.block (s.processesCr3 pid) q

/-- The line at the end of a path, zero when the path breaks off before it. -/
def line (q : List (Fin 512)) (j : Fin 512) : ℕ :=
  entry pageLineToBlock s.block (s.processesCr3 pid) q j

def frame (v : ℕ) : Option ℕ :=
  s.node pid (pagePath v)

/-- No block is the table of two places in the low half. -/
def TreeOk : Prop :=
  Unshared pageLineToBlock s.block (s.processesCr3 pid) (lowPaths 3)

/-- A block is a table or a frame of the low half. -/
def Uses (b : ℕ) : Prop :=
  ∃ q ∈ lowPaths 4, s.node pid q = some b

variable {s s' : Machine} {pid}

@[simp] theorem node_nil : s.node pid [] = some (s.processesCr3 pid) := rfl

theorem isPaged_eq (v : ℕ) : isPaged s pid v = (s.frame pid v).isSome := by
  simp only [isPaged, frame, node, pagePath, locate_cons, RadixTree.next]
  split_ifs <;> simp_all

def IsTable (s : Machine) (pid x : ℕ) : Prop :=
  ∃ q ∈ lowPaths 3, s.node pid q = some x

theorem IsTable.uses {x : ℕ} (h : s.IsTable pid x) : s.Uses pid x := by
  obtain ⟨q, hq, hx⟩ := h
  exact ⟨q, lowPaths_mono (by decide) hq, hx⟩

section Congr

variable (hcr3 : s'.processesCr3 pid = s.processesCr3 pid)
  (hblock : ∀ x, s.IsTable pid x → s'.block x = s.block x)
include hcr3 hblock

theorem node_congr (hq : q ∈ lowPaths 4) : s'.node pid q = s.node pid q := by
  rcases eq_nil_or_snoc_of_mem_lowPaths hq with rfl | ⟨r, hr, j, rfl⟩
  · rw [node_nil, node_nil, hcr3]
  · rw [node, node, hcr3]
    refine locate_congr (closed_lowPaths 3) ?_ hr j
    intro r hr x hx k
    rw [hblock x ⟨r, hr, hx⟩]

theorem line_congr (hq : q ∈ lowPaths 3) (j : Fin 512) : s'.line pid q j = s.line pid q j := by
  have hnode := node_congr hcr3 hblock (lowPaths_mono (show 3 ≤ 4 by decide) hq)
  rw [line, line, entry, entry, ← node, ← node, hnode]
  cases hx : s.node pid q with
  | none => rfl
  | some x => rw [elim_some, elim_some, hblock x ⟨q, hq, hx⟩]

theorem treeOk_congr (h : s.TreeOk pid) : s'.TreeOk pid := by
  have hnode := fun r (hr : r ∈ lowPaths 3) =>
    node_congr hcr3 hblock (lowPaths_mono (show 3 ≤ 4 by decide) hr)
  intro p hp q hq x hpx hqx
  exact h p hp q hq x ((hnode p hp).symm.trans hpx) ((hnode q hq).symm.trans hqx)

end Congr

/-- Between two states one path leads elsewhere and the others lead where they led. -/
structure Edits (pid : ℕ) (s s' : Machine) (p : List (Fin 512)) (r : Option ℕ) : Prop where
  cr3 : s'.processesCr3 = s.processesCr3
  self : s'.node pid p = r
  other : ∀ q ∈ lowPaths 4, q ≠ p → s'.node pid q = s.node pid q
  lines : ∀ q ∈ lowPaths 3, ∀ j, q ++ [j] ≠ p → s'.line pid q j = s.line pid q j

theorem Edits.refl (s : Machine) : Edits pid s s p (s.node pid p) :=
  ⟨rfl, rfl, fun _ _ _ => rfl, fun _ _ _ _ => rfl⟩

/-- The lines on a path are the same. -/
def SameTrail (pid : ℕ) (s s' : Machine) (q : List (Fin 512)) : Prop :=
  ∀ r j, r ++ [j] <+: q → s'.line pid r j = s.line pid r j

theorem SameTrail.trans {s1 s2 s3 : Machine} (h : SameTrail pid s1 s2 q)
    (h' : SameTrail pid s2 s3 q) : SameTrail pid s1 s3 q := fun r j hr =>
  (h' r j hr).trans (h r j hr)

theorem node_ne_none_of_through (h : s.node pid q ≠ none) (hp : p <+: q) : s.node pid p ≠ none := by
  obtain ⟨r, rfl⟩ := hp
  intro hnone
  rw [node, locate_append, ← node, hnone] at h
  exact h rfl

theorem Edits.sameTrail (h : Edits pid s s' p r) (hend : s.node pid p = none ∨ s'.node pid p = none)
    (hq : q ∈ lowPaths 4) (hs : s.node pid q ≠ none) (hs' : s'.node pid q ≠ none) :
    SameTrail pid s s' q := by
  intro r j hr
  refine h.lines r (mem_lowPaths_of_snoc (mem_lowPaths_of_initial hr hq)) j ?_
  rintro rfl
  rcases hend with hnone | hnone
  · exact node_ne_none_of_through hs hr hnone
  · exact node_ne_none_of_through hs' hr hnone

section Write

variable {table b : ℕ}

theorem node_snoc (ht : s.node pid p = some table) :
    s.node pid (p ++ [i]) = next pageLineToBlock s.block table i := by
  rw [node, locate_snoc, ← node, ht, bind_some]

/-- A write to one line of a table, from the tree below that line. -/
theorem TreeOk.setLine (line : ℕ) (h : s.TreeOk pid) (hp : p ∈ lowPaths 3)
    (ht : s.node pid p = some table)
    (hold : p ++ [i] ∈ lowPaths 3 → ∀ m, s.node pid (p ++ [i]) = some m → ∀ j, s.block m j = 0)
    (hnew : p ++ [i] ∈ lowPaths 3 → line ≠ 0 →
      ∀ j, (s.setLine table i line).block (pageLineToBlock line) j = 0)
    (hfresh : p ++ [i] ∈ lowPaths 3 → line ≠ 0 → ¬ s.Uses pid (pageLineToBlock line)) :
    (s.setLine table i line).TreeOk pid ∧
      Edits pid s (s.setLine table i line) (p ++ [i])
        (if line = 0 then none else some (pageLineToBlock line)) := by
  have hc := closed_lowPaths 3
  have hloc : ∀ q ∈ lowPaths 3, ∀ j, (s.setLine table i line).node pid (q ++ [j]) = _ :=
    fun q hq j => Unshared.locate_setEntry h hc hp ht hold hnew hq j
  refine ⟨?_, rfl, ?_, ?_, ?_⟩
  · refine Unshared.setEntry h hc hp ht hold hnew ?_
    intro hmem hline q hq hnode
    exact hfresh hmem hline ⟨q, lowPaths_mono (by decide) hq, hnode⟩
  · rw [hloc p hp i, if_pos rfl]
  · intro q hq hne
    rcases eq_nil_or_snoc_of_mem_lowPaths hq with rfl | ⟨r, hr, j, rfl⟩
    · rw [node_nil, node_nil, Machine.setLine]
    · rw [hloc r hr j, if_neg hne, node]
  · intro q hq j hne
    exact Unshared.entry_setEntry h hc hp ht hold hnew hq hne

theorem TreeOk.dropLine (h : s.TreeOk pid) (hp : p ∈ lowPaths 3) (ht : s.node pid p = some table)
    (hempty : p ++ [i] ∈ lowPaths 3 → ∀ m, s.node pid (p ++ [i]) = some m →
      ∀ j, s.block m j = 0) :
    (s.dropLine table i).TreeOk pid ∧ Edits pid s (s.dropLine table i) (p ++ [i]) none := by
  have hset := TreeOk.setLine
    (s := { s with memoryMap := setMemoryBlockUsedWhenBoot s.memoryMap (s.block table i) false })
    (i := i) 0 h hp ht hempty (fun _ h => absurd rfl h) (fun _ h => absurd rfl h)
  exact ⟨hset.1, hset.2.cr3, hset.2.self, hset.2.other, hset.2.lines⟩

end Write

/-! ## What a call takes from the map -/

def Takes (s s' : Machine) (b : ℕ) : Prop :=
  s.memoryMap b = 0 ∧ s'.memoryMap b ≠ 0

/-- The blocks taken between two states are blocks that the tree of the process did not use. -/
def TakesUnused (pid : ℕ) (s s' : Machine) : Prop :=
  ∀ b, Takes s s' b → ¬ s.Uses pid b

def KeepsMarks (s s' : Machine) : Prop :=
  ∀ b, s.memoryMap b ≠ 0 → s'.memoryMap b ≠ 0

theorem TakesUnused.left {s₀ s1 s2 : Machine} (hfresh : TakesUnused pid s₀ s2)
    (h : KeepsMarks s1 s2) : TakesUnused pid s₀ s1 := fun b hb =>
  hfresh b ⟨hb.1, h b hb.2⟩

theorem keepsMarks_of_map (hmap : s'.memoryMap = setMemoryBlockUsedWhenBoot s.memoryMap b true) :
    KeepsMarks s s' := by
  intro c hc
  rw [hmap]
  by_cases hcb : c = b
  · subst hcb
    rw [setMemoryBlockUsedWhenBoot_true]
    decide
  · rwa [setMemoryBlockUsedWhenBoot_ne true hcb]

/-- Marked blocks stay marked, and what the tree uses it used before or has been taken. -/
structure Grows (pid : ℕ) (s s' : Machine) : Prop where
  cr3 : s'.processesCr3 = s.processesCr3
  marked : KeepsMarks s s'
  uses : ∀ b, s'.Uses pid b → s.Uses pid b ∨ Takes s s' b

namespace Grows

variable {s₀ s1 s2 : Machine}

theorem refl (s : Machine) : Grows pid s s :=
  ⟨rfl, fun _ => id, fun _ => .inl⟩

theorem trans (h : Grows pid s₀ s1) (h' : Grows pid s1 s2) : Grows pid s₀ s2 where
  cr3 := h'.cr3.trans h.cr3
  marked b hb := h'.marked b (h.marked b hb)
  uses b hb := by
    rcases h'.uses b hb with h1 | ⟨hfree, htaken⟩
    · exact (h.uses b h1).imp_right fun h2 => ⟨h2.1, h'.marked b h2.2⟩
    · exact .inr ⟨not_not.mp fun hb => h.marked b hb hfree, htaken⟩

theorem takesUnused (h : Grows pid s₀ s1) (hfresh : TakesUnused pid s₀ s2) :
    TakesUnused pid s1 s2 := by
  rintro b ⟨hfree, htaken⟩
  have hfree0 : s₀.memoryMap b = 0 := not_not.mp fun hb => h.marked b hb hfree
  intro huses
  rcases h.uses b huses with h1 | h1
  · exact hfresh b ⟨hfree0, htaken⟩ h1
  · exact h1.2 hfree

end Grows

theorem Edits.uses {c : ℕ} (h : Edits pid s s' p (some c)) (hb : s'.Uses pid b) :
    s.Uses pid b ∨ b = c := by
  obtain ⟨q, hq, hnode⟩ := hb
  by_cases hqp : q = p
  · subst hqp
    exact .inr (some.inj (hnode.symm.trans h.self))
  · exact .inl ⟨q, hq, (h.other q hq hqp).symm.trans hnode⟩

theorem Edits.grows (h : Edits pid s s' p (some b)) (hfree : s.memoryMap b = 0)
    (hmap : s'.memoryMap = setMemoryBlockUsedWhenBoot s.memoryMap b true) : Grows pid s s' := by
  have htake : Takes s s' b := ⟨hfree, by rw [hmap, setMemoryBlockUsedWhenBoot_true]; decide⟩
  refine ⟨h.cr3, keepsMarks_of_map hmap, ?_⟩
  intro c hc
  exact (h.uses hc).imp_right fun hcb : c = b => hcb ▸ htake

end Machine

open Machine

variable {boot : Boot} {s s' : Machine} {pid table : ℕ}

/-! ## One step down -/

/-- One line on the way down: it leads to a block, or a free block is taken for it, which is erased
if it becomes a table. -/
inductive Passes (boot : Boot) (s : Machine) (table : ℕ) (i : Fin 512) (inner : Prop) :
    ℕ → Machine → Prop
  | old (hne : s.block table i ≠ 0) :
    Passes boot s table i inner (pageLineToBlock (s.block table i)) s
  | new {b : ℕ} {m : Machine} (hzero : s.block table i = 0) (hb : b < 2 ^ 40)
      (hget : getAFreeBlock boot s.memoryMap = some (b, m.memoryMap))
      (hcr3 : m.processesCr3 = s.processesCr3) (hblock : ∀ x ≠ b, m.block x = s.block x)
      (herased : inner → ∀ j, m.block b j = 0) :
    Passes boot s table i inner b (m.setLine table i (b * 4096 + 7))

section Down

variable (hboot : boot.totalMemoryBlocksCount ≤ 2 ^ 40)
include hboot

theorem nextTable_passes (h : nextTable boot s table i = some (t, s')) :
    Passes boot s table i True t s' := by
  unfold nextTable at h
  split_ifs at h with hzero
  · obtain ⟨⟨addr, map⟩, haddr, heq⟩ := map_eq_some_iff.mp h
    obtain ⟨b, hb, hget, -, hblock, hline⟩ := getAFreeBlockAddr_eq_some hboot haddr
    cases heq
    rw [hblock, hline]
    exact .new hzero hb hget rfl (fun x hx => update_of_ne hx _ _) fun _ j => by simp [eraseBlock]
  · cases h
    exact .old hzero

theorem newFrame_passes (h : newFrame boot junk s table i = some (phys, s')) :
    ∃ b, Passes boot s table i False b s' ∧ (s.block table i = 0 → phys = b * 4096) := by
  unfold newFrame at h
  split_ifs at h with hzero
  · obtain ⟨⟨addr, map⟩, haddr, heq⟩ := map_eq_some_iff.mp h
    obtain ⟨b, hb, hget, hphys, -, hline⟩ := getAFreeBlockAddr_eq_some hboot haddr
    obtain ⟨rfl, rfl⟩ := Prod.mk.inj heq
    rw [hphys, hline]
    exact ⟨b, .new hzero hb hget rfl (fun _ _ => rfl) False.elim, fun _ => rfl⟩
  · cases h
    exact ⟨_, .old hzero, fun h => absurd h hzero⟩

end Down

namespace Passes

variable {inner : Prop} (h : Passes boot s table i inner b s')
include h

theorem keepsMarks : KeepsMarks s s' := by
  cases h with
  | old => exact fun _ => id
  | new _ _ hget => exact keepsMarks_of_map (getAFreeBlock_eq_some hget).2.2

/-- The line leads to the block afterwards, and every other line is as it was. -/
theorem spec (hok : s.TreeOk pid) (hp : p ∈ lowPaths 3) (ht : s.node pid p = some table)
    (hinner : p ++ [i] ∈ lowPaths 3 → inner) (hfresh : TakesUnused pid s s') :
    s'.TreeOk pid ∧ Edits pid s s' (p ++ [i]) (some b) ∧ Grows pid s s' ∧
      (s' = s ∨ s.node pid (p ++ [i]) = none ∧ Takes s s' b) := by
  cases h with
  | old hne =>
    have hself := (node_snoc ht).trans (next_of_ne hne)
    exact ⟨hok, hself ▸ Edits.refl s, Grows.refl s, .inl rfl⟩
  | @new _ m hzero hb hget hcr3 hblock herased =>
    obtain ⟨-, hfree, hmap⟩ := getAFreeBlock_eq_some hget
    have htake : Takes s (m.setLine table i (b * 4096 + 7)) b :=
      ⟨hfree, by simp [setLine, hmap]⟩
    have hunused := hfresh b htake
    have htables : ∀ x, s.IsTable pid x → m.block x = s.block x := by
      intro x hx
      refine hblock x ?_
      rintro rfl
      exact hunused hx.uses
    have hroot := congrFun hcr3 pid
    have hnode := fun q (hq : q ∈ lowPaths 4) => node_congr hroot htables hq
    have hnone : s.node pid (p ++ [i]) = none := by rw [node_snoc ht, next_eq_none.mpr hzero]
    have hchild := pageLineToBlock_line hb
    have ht' := (hnode p (lowPaths_mono (by decide) hp)).trans ht
    have hset := TreeOk.setLine (i := i) (b * 4096 + 7) (treeOk_congr hroot htables hok) hp ht'
      ?_ ?_ ?_
    · rw [if_neg (Nat.succ_ne_zero _), hchild] at hset
      obtain ⟨hok', hedit⟩ := hset
      have hedit' : Edits pid s (m.setLine table i (b * 4096 + 7)) (p ++ [i]) (some b) := by
        refine ⟨hcr3, hedit.self, ?_, ?_⟩
        · intro q hq hqp
          exact (hedit.other q hq hqp).trans (hnode q hq)
        · intro q hq j hqp
          exact (hedit.lines q hq j hqp).trans (line_congr hroot htables hq j)
      exact ⟨hok', hedit', hedit'.grows hfree hmap, .inr ⟨hnone, htake⟩⟩
    · intro hmem n hn
      rw [hnode _ (lowPaths_mono (by decide) hmem), hnone] at hn
      cases hn
    · intro hmem _ j
      rw [hchild]
      change setEntry m.block table i _ b j = 0
      -- the table is in use and the block is not
      have hbt : b ≠ table := by
        rintro rfl
        exact hunused ⟨p, lowPaths_mono (by decide) hp, ht⟩
      rw [setEntry_of_ne (.inl hbt)]
      exact herased (hinner hmem) j
    · rintro _ _ ⟨q, hq, hqb⟩
      rw [hchild] at hqb
      exact hunused ⟨q, hq, (hnode q hq).symm.trans hqb⟩

end Passes

theorem snoc_notMem_lowPaths (hlen : p.length = 3) : p ++ [i] ∉ lowPaths 3 := by
  rintro ⟨hle, -⟩
  simp [hlen] at hle

/-! ## One call -/

theorem Machine.Edits.frames (h : Edits pid s s' p r) (hp : p.length < 4) (hq : q ∈ lowPaths 4)
    (hlen : q.length = 4) : s'.node pid q = s.node pid q := by
  refine h.other q hq ?_
  rintro rfl
  omega

theorem Machine.Edits.sameTrail_of_grows (h : Edits pid s s' p r)
    (hend : s' = s ∨ s.node pid p = none) (hq : q ∈ lowPaths 4) (hs : s.node pid q ≠ none)
    (hs' : s'.node pid q ≠ none) : SameTrail pid s s' q := by
  rcases hend with rfl | hnone
  · exact fun _ _ _ => rfl
  · exact h.sameTrail (.inl hnone) hq hs hs'

/-- `increase_paging_of_process_with_virt_addr` from a table downwards. -/
def increaseFrom (boot : Boot) (junk : ℕ) (s : Machine) (table : ℕ) :
    List (Fin 512) → Option (ℕ × Machine)
  | [] => none
  | [i] => newFrame boot junk s table i
  | i :: j :: path => do
    let (t, s) ← nextTable boot s table i
    increaseFrom boot junk s t (j :: path)

theorem increasePaging_eq (boot : Boot) (junk : ℕ) (s : Machine) (pid v : ℕ) :
    increasePagingOfProcessWithVirtAddr boot junk s pid v =
      increaseFrom boot junk s (s.processesCr3 pid) (pagePath v) := rfl

/-- The lines that a call passes on its way down to the frame. -/
inductive Descends (boot : Boot) (phys : ℕ) (s' : Machine) : Machine → ℕ → List (Fin 512) → Prop
  | frame {s : Machine} {table b : ℕ} {i : Fin 512} (h : Passes boot s table i False b s')
      (hphys : s.block table i = 0 → phys = b * 4096) : Descends boot phys s' s table [i]
  | table {s s1 : Machine} {table t : ℕ} {i j : Fin 512} {path : List (Fin 512)}
      (h : Passes boot s table i True t s1) (hrest : Descends boot phys s' s1 t (j :: path)) :
    Descends boot phys s' s table (i :: j :: path)

theorem increaseFrom_descends (hboot : boot.totalMemoryBlocksCount ≤ 2 ^ 40)
    (h : increaseFrom boot junk s table path = some (phys, s')) :
    Descends boot phys s' s table path := by
  fun_induction increaseFrom boot junk s table path with
  | case1 => cases h
  | case2 =>
    obtain ⟨b, hpass, hphys⟩ := newFrame_passes hboot h
    exact .frame hpass hphys
  | case3 s table i j path ih =>
    obtain ⟨⟨t, s1⟩, h1, h2⟩ := bind_eq_some_iff.mp h
    exact .table (nextTable_passes hboot h1) (ih t s1 h2)

namespace Descends

variable (h : Descends boot phys s' s table path)
include h

theorem keepsMarks : KeepsMarks s s' := by
  induction h with
  | frame h => exact h.keepsMarks
  | table h _ ih => exact fun b hb => ih b (h.keepsMarks b hb)

/-- The call from a table downwards. -/
theorem maps (hok : s.TreeOk pid)
    (hp : p ++ path ∈ lowPaths 4) (hlen : (p ++ path).length = 4) (ht : s.node pid p = some table)
    (hfresh : TakesUnused pid s s') :
    s'.TreeOk pid ∧ Grows pid s s' ∧
      (∀ q ∈ lowPaths 4, q.length = 4 → q ≠ p ++ path → s'.node pid q = s.node pid q ∧
        (s.node pid q ≠ none → SameTrail pid s s' q)) ∧
      ∃ b, s'.node pid (p ++ path) = some b ∧
        (s.node pid (p ++ path) = none ∧ Takes s s' b ∧ phys = b * 4096 ∨
          s.node pid (p ++ path) = some b) := by
  induction h generalizing p with
  | @frame s table b i hpass hphys =>
    obtain ⟨hok', he, hgrows, hend⟩ := hpass.spec hok (mem_lowPaths_of_append hp).1 ht
      (fun hmem => snoc_notMem_lowPaths (by simpa using hlen) hmem) hfresh
    refine ⟨hok', hgrows, ?_, b, he.self, ?_⟩
    · intro q hq _ hne
      have hnode := he.other q hq hne
      exact ⟨hnode, fun hs => he.sameTrail_of_grows (hend.imp_right And.left) hq hs
        (hnode.trans_ne hs)⟩
    · rcases hend with rfl | ⟨hnone, htake⟩
      · exact .inr he.self
      · rw [node_snoc ht] at hnone
        exact .inl ⟨(node_snoc ht).trans hnone, htake, hphys (next_eq_none.mp hnone)⟩
  | @table s s1 table t i j path hpass hrest ih =>
    -- what the later steps take is unused when they take it
    obtain ⟨hok1, he, hgrows1, hend⟩ := hpass.spec hok (mem_lowPaths_of_append hp).1 ht
      (fun _ => trivial) (hfresh.left hrest.keepsMarks)
    have hassoc : p ++ [i] ++ j :: path = p ++ i :: j :: path := by simp
    obtain ⟨hok', hgrows, hframes, b, hb, hnew⟩ := ih hok1 (hassoc ▸ hp) (hassoc ▸ hlen)
      he.self (hgrows1.takesUnused hfresh)
    rw [hassoc] at hframes hb hnew
    have hsame : ∀ q ∈ lowPaths 4, q.length = 4 → s1.node pid q = s.node pid q := by
      intro q hq hq4
      refine he.frames ?_ hq hq4
      simp only [length_append, length_cons, length_nil] at hlen ⊢
      omega
    refine ⟨hok', hgrows1.trans hgrows, ?_, b, hb, ?_⟩
    · intro q hq hq4 hne
      obtain ⟨hnode, htrail⟩ := hframes q hq hq4 hne
      have hnode1 := hsame q hq hq4
      refine ⟨hnode.trans hnode1, fun hs => ?_⟩
      have hs1 := hnode1.trans_ne hs
      exact (he.sameTrail_of_grows (hend.imp_right And.left) hq hs hs1).trans (htrail hs1)
    · rw [hsame _ hp hlen] at hnew
      refine hnew.imp_left ?_
      rintro ⟨hnone, htake, hphys⟩
      -- a block that was marked at the start would still be marked before the later steps
      exact ⟨hnone, ⟨not_not.mp fun hb => hgrows1.marked b hb htake.1, htake.2⟩, hphys⟩

end Descends

/-- **`increase_paging_of_process_with_virt_addr`** maps the page, to a block taken by the call if
it was not mapped, and the other pages keep their frames and the lines on the way to them. -/
theorem increasePaging_spec (hboot : boot.totalMemoryBlocksCount ≤ 2 ^ 40)
    (h : increasePagingOfProcessWithVirtAddr boot junk s pid v = some (phys, s'))
    (hok : s.TreeOk pid) (hv : v < HM) (hfresh : TakesUnused pid s s') :
    s'.TreeOk pid ∧ Grows pid s s' ∧
      (∀ q ∈ lowPaths 4, q.length = 4 → q ≠ pagePath v → s'.node pid q = s.node pid q ∧
        (s.node pid q ≠ none → SameTrail pid s s' q)) ∧
      ∃ b, s'.frame pid v = some b ∧
        (s.frame pid v = none ∧ Takes s s' b ∧ phys = b * 4096 ∨ s.frame pid v = some b) :=
  (increaseFrom_descends hboot (increasePaging_eq .. ▸ h)).maps (p := []) hok
    (pagePath_mem hv) rfl rfl hfresh

/-- The page of an address is unmapped and the other pages keep their frames. -/
structure Unmaps (pid v : ℕ) (s s' : Machine) : Prop where
  treeOk : s'.TreeOk pid
  cr3 : s'.processesCr3 = s.processesCr3
  self : s'.frame pid v = none
  other : ∀ q ∈ lowPaths 4, q.length = 4 → q ≠ pagePath v → s'.node pid q = s.node pid q
  trail : ∀ q ∈ lowPaths 4, q.length = 4 → q ≠ pagePath v → s.node pid q ≠ none →
    SameTrail pid s s' q
  shrinks : ∀ q ∈ lowPaths 4, ∀ m, s'.node pid q = some m → s.node pid q = some m

theorem Machine.Edits.shrinks (h : Edits pid s s' p none) (hq : q ∈ lowPaths 4)
    (hm : s'.node pid q = some m) : s.node pid q = some m := by
  refine (h.other q hq ?_).symm.trans hm
  rintro rfl
  cases h.self.symm.trans hm

/-- A line is dropped if there is nothing left behind it, and whether that leaves its table
empty. -/
def dropBehind (r : Machine × Bool) (table : ℕ) (i : Fin 512) : Machine × Bool :=
  if r.2 then (r.1.dropLine table i, (r.1.dropLine table i).blockEmpty table) else (r.1, false)

/-- `decrease_paging_of_process_with_virt_addr` from a table downwards, and whether it leaves the
table empty. -/
def decreaseFrom (s : Machine) (table : ℕ) : List (Fin 512) → Machine × Bool
  | [] => (s, true)
  | i :: path =>
    if s.block table i = 0 then (s, false)
    else dropBehind (decreaseFrom s (pageLineToBlock (s.block table i)) path) table i

theorem clearPage_eq (s : Machine) (l4 l3 l2 l1 v : ℕ) :
    clearPage s l4 l3 l2 l1 v =
      (dropBehind (dropBehind (dropBehind (dropBehind (s, true) l1 (tableIndex v 12))
        l2 (tableIndex v 21)) l3 (tableIndex v 30)) l4 (tableIndex v 39)).1 := by
  simp only [clearPage, dropBehind]
  split_ifs <;> simp_all

theorem decreasePaging_eq (s : Machine) (pid v : ℕ) :
    decreasePagingOfProcessWithVirtAddr s pid v =
      (decreaseFrom s (s.processesCr3 pid) (pagePath v)).1 := by
  have hzero : ∀ table i path, s.block table i = 0 →
      decreaseFrom s table (i :: path) = (s, false) := fun _ _ _ h => if_pos h
  have hline : ∀ table i path, s.block table i ≠ 0 → decreaseFrom s table (i :: path) =
      dropBehind (decreaseFrom s (pageLineToBlock (s.block table i)) path) table i :=
    fun _ _ _ h => if_neg h
  have hstop : ∀ table i, dropBehind (s, false) table i = (s, false) := fun _ _ => rfl
  unfold decreasePagingOfProcessWithVirtAddr
  dsimp only [pagePath]
  split_ifs with h4 h3 h2 h1
  · rw [hzero _ _ _ h4]
  · rw [hline _ _ _ h4, hzero _ _ _ h3, hstop]
  · rw [hline _ _ _ h4, hline _ _ _ h3, hzero _ _ _ h2, hstop, hstop]
  · rw [hline _ _ _ h4, hline _ _ _ h3, hline _ _ _ h2, hzero _ _ _ h1, hstop, hstop, hstop]
  · rw [hline _ _ _ h4, hline _ _ _ h3, hline _ _ _ h2, hline _ _ _ h1, clearPage_eq]
    rfl

/-- What a call from the table at the end of `p` leaves as it was: the tree up to that table and the
other pages. -/
structure Prunes (pid : ℕ) (p path : List (Fin 512)) (s s' : Machine) : Prop where
  treeOk : s'.TreeOk pid
  cr3 : s'.processesCr3 = s.processesCr3
  other : ∀ q ∈ lowPaths 4, q.length ≤ p.length ∨ q.length = 4 ∧ q ≠ p ++ path →
    s'.node pid q = s.node pid q
  trail : ∀ q ∈ lowPaths 4, s'.node pid q ≠ none → SameTrail pid s s' q
  shrinks : ∀ q ∈ lowPaths 4, ∀ m, s'.node pid q = some m → s.node pid q = some m

theorem Prunes.drop {s1 s2 : Machine} (h : Prunes pid (p ++ [i]) path s s1)
    (hlen : (p ++ i :: path).length = 4) (hok : s2.TreeOk pid)
    (he : Edits pid s1 s2 (p ++ [i]) none) : Prunes pid p (i :: path) s s2 where
  treeOk := hok
  cr3 := he.cr3.trans h.cr3
  other q hq hne := by
    simp only [length_append, length_cons] at hlen
    have hne' : q ≠ p ++ [i] := by
      rintro rfl
      simp only [length_append, length_singleton] at hne
      obtain rfl := eq_nil_of_length_eq_zero (show path.length = 0 by omega)
      exact (hne.resolve_left (by omega)).2 rfl
    refine (he.other q hq hne').trans (h.other q hq ?_)
    simp only [length_append, length_singleton, append_assoc, singleton_append]
    exact hne.imp_left fun hle => by omega
  trail q hq hs := by
    obtain ⟨m, hm⟩ := ne_none_iff_exists'.mp hs
    have hs1 : s1.node pid q ≠ none := by
      rw [he.shrinks hq hm]
      simp
    exact (h.trail q hq hs1).trans (he.sameTrail (.inr he.self) hq hs1 hs)
  shrinks q hq m hm := h.shrinks q hq m (he.shrinks hq hm)

/-- The call from a table downwards. If it is left empty, its own line is dropped next. -/
theorem decreaseFrom_prunes (hok : s.TreeOk pid) (hp : p ++ path ∈ lowPaths 4)
    (hlen : (p ++ path).length = 4) (ht : s.node pid p = some table) :
    Prunes pid p path s (decreaseFrom s table path).1 ∧
      (path ≠ [] → (decreaseFrom s table path).1.node pid (p ++ path) = none ∧
        ((decreaseFrom s table path).2 = true →
          ∀ j, (decreaseFrom s table path).1.block table j = 0)) := by
  have hrefl : ∀ p path, Prunes pid p path s s := fun _ _ =>
    ⟨hok, rfl, fun _ _ _ => rfl, fun _ _ _ _ _ _ => rfl, fun _ _ _ => id⟩
  induction path generalizing p table with
  | nil => exact ⟨hrefl p [], fun h => absurd rfl h⟩
  | cons i path ih =>
    obtain ⟨hp3, hpi⟩ := mem_lowPaths_of_append hp
    have hassoc : p ++ [i] ++ path = p ++ i :: path := by simp
    by_cases hzero : s.block table i = 0
    · -- the page is not mapped
      rw [decreaseFrom, if_pos hzero]
      refine ⟨hrefl p _, fun _ => ⟨?_, by simp⟩⟩
      rw [node, locate_append, ← node, ht, bind_some, locate_cons,
        next_eq_none.mpr hzero, bind_none]
    have hchild := (node_snoc ht).trans (next_of_ne hzero)
    obtain ⟨hrest, hend⟩ := ih (hassoc ▸ hp) (hassoc ▸ hlen) hchild
    have hleaf :
      path = [] → (decreaseFrom s (pageLineToBlock (s.block table i)) path).2 = true := by
      rintro rfl
      rfl
    rw [decreaseFrom, if_neg hzero, dropBehind]
    split_ifs with hflag
    · have ht' := (hrest.other p (lowPaths_mono (by decide) hp3) (.inl (by simp))).trans ht
      obtain ⟨hok', he⟩ := hrest.treeOk.dropLine (i := i) hp3 ht' fun hmem m hm => by
        cases ((hrest.other _ hpi (.inl le_rfl)).trans hchild).symm.trans hm
        refine (hend ?_).2 hflag
        rintro rfl
        have hle := hmem.1
        omega
      dsimp only
      refine ⟨hrest.drop hlen hok' he, fun _ => ⟨?_, (blockEmpty_iff _ _).mp⟩⟩
      rcases eq_or_ne path [] with rfl | hne
      · exact he.self
      · refine eq_none_iff_forall_ne_some.mpr fun m hm => ?_
        rw [← hassoc] at hm
        cases (hend hne).1.symm.trans (he.shrinks (hassoc ▸ hp) hm)
    · have hne : path ≠ [] := fun h => hflag (hleaf h)
      refine ⟨⟨hrest.treeOk, hrest.cr3, ?_, hrest.trail, hrest.shrinks⟩,
        fun _ => ⟨hassoc ▸ (hend hne).1, by simp⟩⟩
      intro q hq hor
      refine hrest.other q hq ?_
      rw [hassoc]
      exact hor.imp_left fun hle => hle.trans (by simp)

/-- **`decrease_paging_of_process_with_virt_addr`**: the page is not mapped afterwards, and the
other pages keep their frames. -/
theorem decreasePaging_spec (hok : s.TreeOk pid) (hv : v < HM) :
    Unmaps pid v s (decreasePagingOfProcessWithVirtAddr s pid v) := by
  obtain ⟨h, hself⟩ := decreaseFrom_prunes (p := []) hok (pagePath_mem hv) rfl rfl
  have hother := fun q hq hlen hne => h.other q hq (.inr ⟨hlen, hne⟩)
  rw [decreasePaging_eq]
  refine ⟨h.treeOk, h.cr3, (hself (by simp)).1, hother, ?_, h.shrinks⟩
  intro q hq hlen hne hs
  exact h.trail q hq ((hother q hq hlen hne).trans_ne hs)

/-! ## The pages that a call leaves alone -/

section Frames

variable {v w : ℕ} (hv : v < HM) (hw : w < HM)
  (hother : ∀ q ∈ lowPaths 4, q.length = 4 → q ≠ pagePath v → s'.node pid q = s.node pid q)
include hv hw hother

theorem frame_of_ne (hne : v / 4096 ≠ w / 4096) : s'.frame pid w = s.frame pid w :=
  hother _ (pagePath_mem hw) rfl fun heq => hne ((pagePath_inj hw hv).mp heq).symm

theorem isPaged_of_frames :
    isPaged s' pid w =
      if v / 4096 = w / 4096 then (s'.frame pid v).isSome else isPaged s pid w := by
  rw [isPaged_eq, isPaged_eq]
  split
  case isTrue heq => rw [frame, frame, (pagePath_inj hv hw).mpr heq]
  case isFalse hne => rw [frame_of_ne hv hw hother hne]

end Frames

/-! ## Sequences of calls -/

/-- The calls of one process on its page tables. The first argument of an increase is the value
that the call returns when the page is mapped already. -/
inductive PagingCall
  | increase (junk virtAddr : ℕ)
  | decrease (virtAddr : ℕ)

namespace PagingCall

def virtAddr : PagingCall → ℕ
  | increase _ v => v
  | decrease v => v

def step (boot : Boot) (pid : ℕ) (s : Machine) : PagingCall → Option Machine
  | increase junk v => (increasePagingOfProcessWithVirtAddr boot junk s pid v).map Prod.snd
  | decrease v => some (decreasePagingOfProcessWithVirtAddr s pid v)

/-- Calls for addresses of the low half, with an allocator that returns blocks that the tree of the
process does not use. -/
def Ok (boot : Boot) (pid : ℕ) (s : Machine) (call : PagingCall) : Prop :=
  call.virtAddr < HM ∧ ∀ s', call.step boot pid s = some s' → TakesUnused pid s s'

/-- Whether the calls leave the page of an address mapped: what the last call for it says. -/
def mapped (v : ℕ) (initially : Bool) (calls : List PagingCall) : Bool :=
  calls.foldl (fun b call =>
    if call.virtAddr / 4096 = v / 4096 then
      match call with
      | increase _ _ => true
      | decrease _ => false
    else b) initially

/-- **One call** keeps the tree, maps or unmaps its page, and gives a new page a frame that no other
page has. -/
theorem step_spec (hboot : boot.totalMemoryBlocksCount ≤ 2 ^ 40) {call : PagingCall}
    (hok : s.TreeOk pid) (hcall : call.Ok boot pid s) (hstep : call.step boot pid s = some s') :
    s'.TreeOk pid ∧
    (∀ v < HM, isPaged s' pid v = mapped v (isPaged s pid v) [call]) ∧
    (∀ w < HM, w / 4096 ≠ call.virtAddr / 4096 → s'.frame pid w = s.frame pid w) ∧
    (∀ junk v, call = increase junk v → isPaged s pid v = false →
      ∃ b, s'.frame pid v = some b ∧
        ∀ w < HM, w / 4096 ≠ v / 4096 → s'.frame pid w ≠ some b) := by
  obtain ⟨hv, hfresh⟩ := hcall
  replace hfresh := hfresh s' hstep
  cases call with
  | increase junk v =>
    obtain ⟨⟨phys, s1⟩, hinc, rfl⟩ := map_eq_some_iff.mp hstep
    obtain ⟨hok', hgrows, hframes, b, hb, hnew⟩ := increasePaging_spec hboot hinc hok hv hfresh
    have hother := fun q hq hlen hne => (hframes q hq hlen hne).1
    refine ⟨hok', fun w hw => ?_, fun w hw hne => frame_of_ne hv hw hother hne.symm, ?_⟩
    · have hpaged := isPaged_of_frames hv hw hother
      rwa [virtAddr, hb] at hpaged
    · rintro _ _ ⟨rfl, rfl⟩ hunmapped
      refine ⟨b, hb, ?_⟩
      intro w hw hne hwb
      rcases hnew with ⟨-, htake, -⟩ | hold
      · -- the frame was free and so not used by another page
        rw [frame_of_ne hv hw hother hne.symm] at hwb
        exact hfresh b htake ⟨_, pagePath_mem hw, hwb⟩
      · rw [isPaged_eq, hold] at hunmapped
        cases hunmapped
  | decrease v =>
    cases hstep
    have hspec := decreasePaging_spec (v := v) hok hv
    refine ⟨hspec.treeOk, fun w hw => ?_,
      fun w hw hne => frame_of_ne hv hw hspec.other hne.symm, by rintro _ _ ⟨⟩⟩
    have hpaged := isPaged_of_frames hv hw hspec.other
    rwa [virtAddr, hspec.self] at hpaged

theorem mapped_snoc (v : ℕ) (b : Bool) (calls : List PagingCall) (call : PagingCall) :
    mapped v b (calls ++ [call]) = mapped v (mapped v b calls) [call] :=
  foldl_append

end PagingCall

/-- **Page tables implement a map.** From a tree in which no table is shared, after any sequence of
calls whose allocations are unused blocks, a page is mapped exactly when its last call was an
increase, or when it was mapped at the start and has had no call. A further call leaves the frame of
every other page, and a page that it maps anew gets a frame of its own. -/
theorem paging_of_run {boot : Boot} {pid : ℕ} {s₀ s : Machine} {calls : List PagingCall}
    (hboot : boot.totalMemoryBlocksCount ≤ 2 ^ 40) (hok : s₀.TreeOk pid)
    (hrun : Run (PagingCall.step boot pid) (PagingCall.Ok boot pid) s₀ calls s) :
    s.TreeOk pid ∧
    (∀ v < HM, isPaged s pid v = PagingCall.mapped v (isPaged s₀ pid v) calls) ∧
    ∀ call s', PagingCall.Ok boot pid s call → PagingCall.step boot pid s call = some s' →
      (∀ w < HM, w / 4096 ≠ call.virtAddr / 4096 → s'.frame pid w = s.frame pid w) ∧
      (∀ junk v, call = .increase junk v → isPaged s pid v = false →
        ∃ b, s'.frame pid v = some b ∧
          ∀ w < HM, w / 4096 ≠ v / 4096 → s'.frame pid w ≠ some b) := by
  have htree : s.TreeOk pid ∧
      ∀ v < HM, isPaged s pid v = PagingCall.mapped v (isPaged s₀ pid v) calls := by
    induction hrun with
    | nil => exact ⟨hok, fun _ _ => rfl⟩
    | snoc _ hcall hstep ih =>
      obtain ⟨hok', hmapped, -⟩ := PagingCall.step_spec hboot ih.1 hcall hstep
      refine ⟨hok', ?_⟩
      intro v hv
      rw [hmapped v hv, ih.2 v hv, PagingCall.mapped_snoc]
  refine ⟨htree.1, htree.2, ?_⟩
  intro call s' hcall hstep
  exact (PagingCall.step_spec hboot htree.1 hcall hstep).2.2

section Empty

variable (hempty : ∀ j : Fin 512, j.val < 128 → s.block (s.processesCr3 pid) j = 0)
include hempty

theorem eq_nil_of_node (hp : p ∈ lowPaths n) (h : s.node pid p = some m) : p = [] := by
  cases p with
  | nil => rfl
  | cons i r =>
    rw [node, locate_cons, next_eq_none.mpr (hempty i (hp.2 i rfl))] at h
    cases h

theorem eq_cr3_of_uses (h : s.Uses pid b) : b = s.processesCr3 pid := by
  obtain ⟨q, hq, hb⟩ := h
  obtain rfl := eq_nil_of_node hempty hq hb
  exact (some.inj hb).symm

theorem treeOk_of_empty : s.TreeOk pid := by
  intro p hp q hq m hpm hqm
  rw [eq_nil_of_node hempty hp hpm, eq_nil_of_node hempty hq hqm]

end Empty

/-- Eight blocks, the first three in use; the third one is an empty level 4 table. -/
def smallMachine : Machine where
  memoryMap b := if b < 3 then 1 else 0
  block _ _ := 0
  processesCr3 _ := 2

theorem smallMachine_empty (j : Fin 512) (_ : j.val < 128) :
    smallMachine.block (smallMachine.processesCr3 1) j = 0 := rfl

theorem smallMachine_takesUnused (s' : Machine) : TakesUnused 1 smallMachine s' := by
  rintro b ⟨hfree, -⟩ huses
  rw [eq_cr3_of_uses smallMachine_empty huses] at hfree
  cases hfree

theorem paging_of_run_small :
    ∃ s, s.TreeOk 1 ∧ isPaged s 1 0x1000 = true ∧ isPaged s 1 0x2000 = false := by
  obtain ⟨s, hs⟩ : ∃ s, PagingCall.step smallBoot 1 smallMachine (.increase 0 0x1000) = some s :=
    isSome_iff_exists.mp (by decide)
  have hcall : PagingCall.Ok smallBoot 1 smallMachine (.increase 0 0x1000) :=
    ⟨by decide, fun s' _ => smallMachine_takesUnused s'⟩
  obtain ⟨hok, hmapped, -⟩ := paging_of_run (by decide) (treeOk_of_empty smallMachine_empty)
    (.snoc (.nil smallMachine) hcall hs)
  exact ⟨s, hok, (hmapped _ (by decide)).trans (by decide),
    (hmapped _ (by decide)).trans (by decide +kernel)⟩

end CarrotOS
