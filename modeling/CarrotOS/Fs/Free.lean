import CarrotOS.Fs.Layout
import CarrotOS.Fs.Update
import CarrotOS.Lib.Chain
import Mathlib.Data.Finset.Range

/-!
# Freeing a chain

The loop of `fat32_truncate_file` reads the entry of a cluster, clears it and goes on with what it
has read. All that is asked of the FAT is that its links lead to clusters that it covers: chains may
meet, and a chain may lead back to one of its clusters.

On a cycle there is no length that gets smaller, but the number of entries that are links does. The
loop sees a changed FAT from its second turn on, and still visits what the FAT at the start leads
to: a cluster is reached over the first link and then without it (`LinkTable.reaches_iff_cut`).
-/

namespace CarrotOS.Fat32

open Bytes LinkTable

namespace Layout

variable (ℓ : Layout)

/-- Where the entry of a cluster leads, for an entry that the loop follows. -/
def link (d : Disk) (c : ℕ) : Option ℕ :=
  if c < ℓ.entries ∧ 2 ≤ mask28 (ℓ.entry d c) ∧ mask28 (ℓ.entry d c) < fat32Eoc then
    some (mask28 (ℓ.entry d c))
  else none

/-- Each entry is 0, 1, an end of a chain, or the number of a cluster that the FAT covers. -/
def FatClosed (d : Disk) : Prop :=
  ∀ c < ℓ.entries, mask28 (ℓ.entry d c) < 2 ∨ fat32Eoc ≤ mask28 (ℓ.entry d c) ∨
    mask28 (ℓ.entry d c) < ℓ.entries

/-- The clusters that are visited by following entries from `c`: none if `c` is not the number of a
cluster. -/
def Visited (d : Disk) (c x : ℕ) : Prop :=
  (2 ≤ c ∧ c < fat32Eoc) ∧ Reaches (ℓ.link d) c x

variable {ℓ} {d d' : Disk} {c x : ℕ}

theorem link_eq_some : ℓ.link d c = some x ↔
    c < ℓ.entries ∧ 2 ≤ x ∧ x < fat32Eoc ∧ mask28 (ℓ.entry d c) = x := by
  unfold link
  split
  · rename_i hlink
    constructor
    · intro heq
      cases heq
      exact ⟨hlink.1, hlink.2.1, hlink.2.2, rfl⟩
    · rintro ⟨-, -, -, rfl⟩
      rfl
  · rename_i hlink
    constructor
    · intro heq
      cases heq
    · rintro ⟨hc, hx2, hx, rfl⟩
      exact absurd ⟨hc, hx2, hx⟩ hlink

theorem link_congr (h : c < ℓ.entries → ℓ.entry d' c = ℓ.entry d c) : ℓ.link d' c = ℓ.link d c := by
  by_cases hc : c < ℓ.entries
  · rw [link, link, h hc]
  · rw [link, link, if_neg fun hlink => hc hlink.1, if_neg fun hlink => hc hlink.1]

theorem FatClosed.lt_of_link (h : ℓ.FatClosed d) (hx : ℓ.link d c = some x) : x < ℓ.entries := by
  obtain ⟨hc, hx2, hx, rfl⟩ := link_eq_some.mp hx
  rcases h c hc with hsmall | hend | hlt
  · omega
  · omega
  · exact hlt

end Layout

namespace OnLayout

variable {ℓ : Layout} {d : Disk} {c : ℕ} (h : OnLayout ℓ d) (hc : c < ℓ.entries)
  (hlt : c < fat32Eoc)

include h hc hlt

theorem setFatEntry_zero : OnLayout ℓ (fat32SetFatEntry ℓ.part d c 0) ∧
    (∀ c' < ℓ.entries, ℓ.entry (fat32SetFatEntry ℓ.part d c 0) c' =
      if c' = c then 0 else ℓ.entry d c') ∧
    ∀ j, j < 512 * ℓ.fatStart ∨ 512 * ℓ.dataStart ≤ j → fat32SetFatEntry ℓ.part d c 0 j = d j :=
  h.setFatEntry hc (hlt.trans (by decide)) 0

theorem link_setFatEntry_zero :
    ℓ.link (fat32SetFatEntry ℓ.part d c 0) = LinkTable.cut (ℓ.link d) c := by
  obtain ⟨-, hentry, -⟩ := h.setFatEntry_zero hc hlt
  funext y
  by_cases hy : y = c
  · subst hy
    rw [cut_self, Layout.link, hentry y hc, if_pos rfl, if_neg]
    rintro ⟨-, hge, -⟩
    cases hge
  · rw [cut_of_ne _ hy]
    refine Layout.link_congr fun hlt => ?_
    rw [hentry y hlt, if_neg hy]

theorem fatClosed_setFatEntry_zero (hclosed : ℓ.FatClosed d) :
    ℓ.FatClosed (fat32SetFatEntry ℓ.part d c 0) := by
  obtain ⟨-, hentry, -⟩ := h.setFatEntry_zero hc hlt
  intro y hy
  rw [hentry y hy]
  split
  · exact .inl (by decide)
  · exact hclosed y hy

theorem sameCopies_setFatEntry_zero (hcopies : ℓ.SameCopies d) :
    ℓ.SameCopies (fat32SetFatEntry ℓ.part d c 0) := by
  have hq : c / 128 < ℓ.fatSize := by
    unfold Layout.entries at hc
    omega
  rw [h.setFatEntry_eq hc (hlt.trans (by decide))]
  exact hcopies.writeMirrors hq _

end OnLayout

/-! ## The loop -/

/-- What the loop leaves behind when it starts at `c`. -/
structure Freed (ℓ : Layout) (d : Disk) (c : ℕ) (d' : Disk) : Prop where
  onLayout : OnLayout ℓ d'
  cleared : ∀ x, ℓ.Visited d c x → ℓ.entry d' x = 0
  others : ∀ x < ℓ.entries, ¬ ℓ.Visited d c x → ℓ.entry d' x = ℓ.entry d x
  copies : ℓ.SameCopies d → ℓ.SameCopies d'
  outside : ∀ j, j < 512 * ℓ.fatStart ∨ 512 * ℓ.dataStart ≤ j → d' j = d j

section Loop

variable {ℓ : Layout} {d d' : Disk} {c e : ℕ}

theorem Freed.refl (h : OnLayout ℓ d) (hc : ¬ (2 ≤ c ∧ c < fat32Eoc)) : Freed ℓ d c d where
  onLayout := h
  cleared := fun _ hx => absurd hx.1 hc
  others := fun _ _ _ => rfl
  copies := id
  outside := fun _ _ => rfl

/-- One turn, and the rest of the loop from the entry `e` that was read. -/
theorem Freed.turn (h : OnLayout ℓ d) (hc2 : 2 ≤ c) (hlt : c < fat32Eoc) (hc : c < ℓ.entries)
    (he : mask28 (ℓ.entry d c) = e) (hrest : Freed ℓ (fat32SetFatEntry ℓ.part d c 0) e d') :
    Freed ℓ d c d' := by
  obtain ⟨-, hentry, houtside⟩ := h.setFatEntry_zero hc hlt
  have hlink := h.link_setFatEntry_zero hc hlt
  -- the clusters visited in the rest are those that the first link leads to
  have hvisited : ∀ x, ℓ.Visited d c x ↔ x = c ∨ ℓ.Visited (fat32SetFatEntry ℓ.part d c 0) e x := by
    intro x
    unfold Layout.Visited
    rw [hlink, reaches_iff_cut, and_iff_right ⟨hc2, hlt⟩]
    refine or_congr Iff.rfl ⟨?_, ?_⟩
    · rintro ⟨b, hb, hreach⟩
      obtain ⟨-, hb2, hb, rfl⟩ := Layout.link_eq_some.mp hb
      obtain rfl : mask28 (ℓ.entry d c) = e := he
      exact ⟨⟨hb2, hb⟩, hreach⟩
    · rintro ⟨⟨he2, hlt⟩, hreach⟩
      exact ⟨e, Layout.link_eq_some.mpr ⟨hc, he2, hlt, he⟩, hreach⟩
  refine ⟨hrest.onLayout, ?_, ?_, ?_, ?_⟩
  · intro x hx
    by_cases hrev : ℓ.Visited (fat32SetFatEntry ℓ.part d c 0) e x
    · exact hrest.cleared x hrev
    · -- the first cluster, if the chain does not come back to it
      obtain rfl := ((hvisited x).mp hx).resolve_right hrev
      rw [hrest.others x hc hrev, hentry x hc, if_pos rfl]
  · intro x hx hnot
    rw [hvisited x, not_or] at hnot
    rw [hrest.others x hx hnot.2, hentry x hx, if_neg hnot.1]
  · intro hcopies
    exact hrest.copies (h.sameCopies_setFatEntry_zero hc hlt hcopies)
  · intro j hj
    rw [hrest.outside j hj, houtside j hj]

/-- The loop ends: each turn that follows a link leaves fewer links. -/
theorem freeChain_freed (h : OnLayout ℓ d) (hclosed : ℓ.FatClosed d)
    (hc : c < 2 ∨ fat32Eoc ≤ c ∨ c < ℓ.entries) :
    ∃ n d', (∀ fuel, n ≤ fuel → freeChain ℓ.part fuel d c = some d') ∧ Freed ℓ d c d' := by
  -- the number of entries that are links
  generalize hcount : ((Finset.range ℓ.entries).filter fun y => (ℓ.link d y).isSome).card = count
  induction count using Nat.strong_induction_on generalizing d c with
  | _ count ih =>
    by_cases hloop : 2 ≤ c ∧ c < fat32Eoc
    · have hlt : c < ℓ.entries := by omega
      have hcut := h.link_setFatEntry_zero hlt hloop.2
      obtain ⟨hlayout, -, -⟩ := h.setFatEntry_zero hlt hloop.2
      have hget := h.getFatEntry hlt (hloop.2.trans (by decide))
      -- the rest of the loop, with one link less or at an end
      have hrest : ∃ n d', (∀ fuel, n ≤ fuel → freeChain ℓ.part fuel
          (fat32SetFatEntry ℓ.part d c 0) (mask28 (ℓ.entry d c)) = some d') ∧
            Freed ℓ (fat32SetFatEntry ℓ.part d c 0) (mask28 (ℓ.entry d c)) d' := by
        by_cases hlink : 2 ≤ mask28 (ℓ.entry d c) ∧ mask28 (ℓ.entry d c) < fat32Eoc
        · have hsome := Layout.link_eq_some.mpr ⟨hlt, hlink.1, hlink.2, rfl⟩
          refine ih _ ?_ hlayout (h.fatClosed_setFatEntry_zero hlt hloop.2 hclosed)
            (.inr (.inr (hclosed.lt_of_link hsome))) rfl
          rw [← hcount, hcut]
          exact card_cut_lt (Finset.mem_range.mpr hlt) (by rw [hsome]; rfl)
        · refine ⟨1, _, ?_, Freed.refl hlayout hlink⟩
          intro fuel hfuel
          obtain ⟨fuel, rfl⟩ := Nat.exists_eq_add_of_le' hfuel
          rw [freeChain, if_neg hlink]
      obtain ⟨n, d', hrun, hfreed⟩ := hrest
      refine ⟨n + 1, d', ?_, Freed.turn h hloop.1 hloop.2 hlt rfl hfreed⟩
      intro fuel hfuel
      obtain ⟨fuel, rfl⟩ := Nat.exists_eq_add_of_le' (show 1 ≤ fuel by omega)
      rw [freeChain, if_pos hloop, hget]
      exact hrun fuel (by omega)
    · refine ⟨1, d, ?_, Freed.refl h hloop⟩
      intro fuel hfuel
      obtain ⟨fuel, rfl⟩ := Nat.exists_eq_add_of_le' hfuel
      rw [freeChain, if_neg hloop]

/-- **Freeing a chain ends and is exact**, for every FAT whose links lead to clusters that it
covers: what the loop visited is cleared, everything else is as it was, and equal copies stay
equal. -/
theorem freeChain_exact (h : OnLayout ℓ d) (hclosed : ℓ.FatClosed d)
    (hc : c < 2 ∨ fat32Eoc ≤ c ∨ c < ℓ.entries) :
    ∃ n d', (∀ fuel, n ≤ fuel → freeChain ℓ.part fuel d c = some d') ∧
      (∀ x, ℓ.Visited d c x → ℓ.entry d' x = 0) ∧
      (∀ x < ℓ.entries, ¬ ℓ.Visited d c x → ℓ.entry d' x = ℓ.entry d x) ∧
      (ℓ.SameCopies d → ℓ.SameCopies d') ∧
      ∀ j, j < 512 * ℓ.fatStart ∨ 512 * ℓ.dataStart ≤ j → d' j = d j := by
  obtain ⟨n, d', hrun, hfreed⟩ := freeChain_freed h hclosed hc
  exact ⟨n, d', hrun, hfreed.cleared, hfreed.others, hfreed.copies, hfreed.outside⟩

end Loop

/-! ## A cycle -/

/-- A volume whose clusters 3, 4 and 5 lead to each other, with a further chain from 6 into the
cycle. -/
def cyclicDisk : Disk := fun p =>
  if 1024 ≤ p ∧ p < 1536 then
    leByte ([0x0FFFFFF8, 0x0FFFFFFF, 0x0FFFFFF8, 4, 5, 3, 4].getD ((p - 1024) / 4) 0) (p % 4)
  else oneSectorDisk p

theorem cyclicDisk_onLayout : OnLayout oneSectorLayout cyclicDisk := by
  refine oneSectorDisk_onLayout.congr fun j hj => ?_
  have hj' : j < 1024 := hj
  rw [cyclicDisk, if_neg (by omega)]

theorem cyclicDisk_eval : (∀ c < 128, mask28 (oneSectorLayout.entry cyclicDisk c) < 2 ∨
      fat32Eoc ≤ mask28 (oneSectorLayout.entry cyclicDisk c) ∨
        mask28 (oneSectorLayout.entry cyclicDisk c) < 128) ∧
    oneSectorLayout.link cyclicDisk 3 = some 4 ∧ oneSectorLayout.link cyclicDisk 4 = some 5 ∧
      oneSectorLayout.link cyclicDisk 5 = some 3 := by
  decide

/-- The loop runs once around the cycle. -/
theorem freeChain_exact_cyclicDisk :
    oneSectorLayout.link cyclicDisk 5 = some 3 ∧
      ∃ n d', (∀ fuel, n ≤ fuel → freeChain 0 fuel cyclicDisk 3 = some d') ∧
        oneSectorLayout.entry d' 3 = 0 ∧ oneSectorLayout.entry d' 4 = 0 ∧
          oneSectorLayout.entry d' 5 = 0 := by
  obtain ⟨hclosed, hthree, hfour, hfive⟩ := cyclicDisk_eval
  obtain ⟨n, d', hrun, hcleared, -⟩ := freeChain_exact cyclicDisk_onLayout hclosed
    (c := 3) (.inr (.inr (by decide)))
  have hstart : 2 ≤ 3 ∧ 3 < fat32Eoc := ⟨by decide, by decide⟩
  have hto : Reaches (oneSectorLayout.link cyclicDisk) 3 4 := .single hthree
  exact ⟨hfive, n, d', hrun, hcleared 3 ⟨hstart, .refl⟩, hcleared 4 ⟨hstart, hto⟩,
    hcleared 5 ⟨hstart, hto.tail hfour⟩⟩

end CarrotOS.Fat32
