import CarrotOS.Mem.Paging

/-!
# Several pages at once

The stack of a thread is four pages that are mapped one after the other and unmapped one after the
other, and its record is a run of blocks from the same allocator. What these loops do is said here
in terms of `isPaged` and `frame`: which pages are mapped afterwards, and that the others keep their
frames.

A free block is taken for a table or a frame without a look at the trees. As long as every block
that the tree of a process uses is marked in `memory_map`, that does no harm.
-/

namespace CarrotOS

open Machine List

variable {vs : List ℕ}

variable {boot : Boot} {s s' : Machine} {pid : ℕ}

/-- The loops that map a page for each address. The returned addresses are not used. -/
def mapPages (boot : Boot) (pid : ℕ) : List ℕ → Machine → Option Machine
  | [], s => some s
  | v :: vs, s => do
    let (_, s) ← increasePagingOfProcessWithVirtAddr boot 0 s pid v
    mapPages boot pid vs s

def unmapPages (pid : ℕ) : List ℕ → Machine → Machine
  | [], s => s
  | v :: vs, s => unmapPages pid vs (decreasePagingOfProcessWithVirtAddr s pid v)

/-- `get_continuous_free_blocks` and the words that are stored in the blocks. -/
def takeBlocks (boot : Boot) (length : ℕ) (contents : ℕ → Fin 512 → ℕ) (s : Machine) :
    Option Machine :=
  (getContinuousFreeBlocks boot length s.memoryMap).map fun (i, map) =>
    { s with
      memoryMap := map
      block := fun b => if b ∈ blocksFrom i length then contents b else s.block b }

/-- Every block that the tree of the process uses is marked as used. -/
def Machine.Marked (s : Machine) (pid : ℕ) : Prop :=
  ∀ b, s.Uses pid b → s.memoryMap b ≠ 0

theorem Machine.Marked.takesUnused (h : s.Marked pid) (s' : Machine) : TakesUnused pid s s' :=
  fun b hb huses => h b huses hb.1

theorem Machine.Marked.grows (h : s.Marked pid) (hg : Grows pid s s') : s'.Marked pid := by
  intro b hb
  rcases hg.uses b hb with hold | hnew
  · exact hg.marked b (h b hold)
  · exact hnew.2

theorem smallMachine_marked : smallMachine.Marked 1 := by
  intro b huses
  rw [eq_cr3_of_uses smallMachine_empty huses]
  decide

/-- **Mapping.** The pages of the addresses are mapped, and no others besides those that were. -/
theorem mapPages_spec (hboot : boot.totalMemoryBlocksCount ≤ 2 ^ 40) (hvs : ∀ v ∈ vs, v < HM)
    (hok : s.TreeOk pid) (hmarked : s.Marked pid) (h : mapPages boot pid vs s = some s') :
    s'.TreeOk pid ∧ s'.Marked pid ∧
      (∀ w < HM, isPaged s' pid w = true ↔
        (∃ v ∈ vs, w / 4096 = v / 4096) ∨ isPaged s pid w = true) ∧
      ∀ w < HM, (∀ v ∈ vs, w / 4096 ≠ v / 4096) → s'.frame pid w = s.frame pid w := by
  induction vs generalizing s with
  | nil =>
    cases h
    exact ⟨hok, hmarked, fun w _ => by simp, fun _ _ _ => rfl⟩
  | cons v vs ih =>
    obtain ⟨⟨phys, s1⟩, hinc, h⟩ := Option.bind_eq_some_iff.mp h
    have hv := hvs v mem_cons_self
    obtain ⟨hok1, hgrows, hframes, b, hb, -⟩ :=
      increasePaging_spec hboot hinc hok hv (hmarked.takesUnused s1)
    have hother := fun q hq hlen hne => (hframes q hq hlen hne).1
    obtain ⟨hok', hmarked', hiff, hframe⟩ :=
      ih (fun w hw => hvs w (mem_cons_of_mem _ hw)) hok1 (hmarked.grows hgrows) h
    refine ⟨hok', hmarked', fun w hw => ?_, fun w hw hne => ?_⟩
    · rw [hiff w hw, isPaged_of_frames hv hw hother, hb]
      by_cases heq : w / 4096 = v / 4096
      · simp [heq]
      · simp [heq, Ne.symm heq]
    · obtain ⟨hne, hrest⟩ := forall_mem_cons.mp hne
      rw [hframe w hw hrest, frame_of_ne hv hw hother hne.symm]

/-- **Unmapping.** The pages of the addresses are not mapped, and the others are as they were. -/
theorem unmapPages_spec (hvs : ∀ v ∈ vs, v < HM) (hok : s.TreeOk pid) :
    (unmapPages pid vs s).TreeOk pid ∧
      (∀ w < HM, isPaged (unmapPages pid vs s) pid w = true ↔
        (∀ v ∈ vs, w / 4096 ≠ v / 4096) ∧ isPaged s pid w = true) ∧
      ∀ w < HM, (∀ v ∈ vs, w / 4096 ≠ v / 4096) →
        (unmapPages pid vs s).frame pid w = s.frame pid w := by
  induction vs generalizing s with
  | nil => exact ⟨hok, fun w _ => by simp [unmapPages], fun _ _ _ => rfl⟩
  | cons v vs ih =>
    have hv := hvs v mem_cons_self
    have hspec : Unmaps pid v s (decreasePagingOfProcessWithVirtAddr s pid v) :=
      decreasePaging_spec hok hv
    obtain ⟨hok', hiff, hframe⟩ := ih (fun w hw => hvs w (mem_cons_of_mem _ hw)) hspec.treeOk
    refine ⟨hok', fun w hw => ?_, fun w hw hne => ?_⟩
    · rw [unmapPages, hiff w hw, isPaged_of_frames hv hw hspec.other, hspec.self]
      by_cases heq : w / 4096 = v / 4096
      · simp [heq]
      · simp [heq, Ne.symm heq]
    · obtain ⟨hne, hrest⟩ := forall_mem_cons.mp hne
      rw [unmapPages, hframe w hw hrest, frame_of_ne hv hw hspec.other hne.symm]

/-- **Blocks for something else.** No page is mapped or unmapped. -/
theorem takeBlocks_spec {length : ℕ} {contents : ℕ → Fin 512 → ℕ} (hok : s.TreeOk pid)
    (hmarked : s.Marked pid) (h : takeBlocks boot length contents s = some s') :
    s'.TreeOk pid ∧ s'.Marked pid ∧ ∀ w < HM, isPaged s' pid w = isPaged s pid w := by
  obtain ⟨⟨i, map⟩, hget, rfl⟩ := Option.map_eq_some_iff.mp h
  obtain ⟨-, hfree, rfl⟩ := getContinuousFreeBlocks_eq_some hget
  -- the blocks are free, so they are not in the tree
  have htables : ∀ x, s.IsTable pid x →
      (if x ∈ blocksFrom i length then contents x else s.block x) = s.block x := fun x hx =>
    if_neg fun hmem => hmarked x hx.uses (hfree x hmem)
  have hnode : ∀ q ∈ lowPaths 4, Machine.node { s with
      memoryMap := markUsed s.memoryMap (blocksFrom i length)
      block := fun b => if b ∈ blocksFrom i length then contents b else s.block b } pid q =
      s.node pid q := fun q hq => node_congr rfl htables hq
  refine ⟨treeOk_congr (s := s) rfl htables hok, fun b hb => ?_, fun w hw => ?_⟩
  · obtain ⟨q, hq, hb⟩ := hb
    have hold := hmarked b ⟨q, hq, (hnode q hq).symm.trans hb⟩
    dsimp only
    rw [markUsed_apply]
    split
    · decide
    · exact hold
  · rw [isPaged_eq, isPaged_eq, frame, frame, hnode _ (pagePath_mem hw)]

end CarrotOS
