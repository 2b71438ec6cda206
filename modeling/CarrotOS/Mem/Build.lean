import CarrotOS.Mem.Pages

/-!
# The first page table of a process

`create_page_table_for_process` fills a new level 4 table page by page: the four loops go through
the lines of the tables of each level, and the index of the page runs on from one table to the next.
Below the first page that is asked for the tables are created without frames, and behind the last
one a `goto` leaves all the loops.
-/

namespace CarrotOS

open Word Transition RadixTree Machine Function List Option

variable {r : Bool × ℕ × Machine}

/-! ## The source -/

/-- A loop over lines of a table, and whether the `goto` has left it. -/
def overLines {σ : Type} (round : Fin 512 → σ → Option (Bool × σ)) :
    List (Fin 512) → σ → Option (Bool × σ)
  | [], st => some (false, st)
  | i :: is, st => do
    let (left, st) ← round i st
    if left then some (true, st) else overLines round is st

/-- A round of the innermost loop, in which `block_index` becomes `n`. -/
def createPage (boot : Boot) (startBlock stop table : ℕ) (i : Fin 512) :
    ℕ × Machine → Option (Bool × ℕ × Machine)
  | (n, s) =>
    if stop ≤ n then some (true, n, s)
    else if n < startBlock then some (false, n + 1, s)
    else (getAFreeBlockAddr boot s.memoryMap).map fun (newFreeBlockAddr, map) =>
      (false, n + 1, { s with memoryMap := map }.setLine table i (newLine newFreeBlockAddr))

/-- A round of another loop, with the loop inside it. -/
def createTable (boot : Boot) (inner : ℕ → ℕ × Machine → Option (Bool × ℕ × Machine)) (table : ℕ)
    (i : Fin 512) : ℕ × Machine → Option (Bool × ℕ × Machine)
  | (n, s) => do
    let (addr, map) ← getAFreeBlockAddr boot s.memoryMap
    let s := { s with memoryMap := map }.eraseBlock (blockAt addr)
    inner (blockAt addr) (n, s.setLine table i (newLine addr))

/-- The loops over the lines of a table that has `d` levels of tables below it. -/
def createLoop (boot : Boot) (startBlock stop : ℕ) :
    ℕ → ℕ → ℕ × Machine → Option (Bool × ℕ × Machine)
  | 0, table => overLines (createPage boot startBlock stop table) (finRange 512)
  | d + 1, table =>
    overLines (createTable boot (createLoop boot startBlock stop d) table) (finRange 512)

/-- `create_page_table_for_process`. The lines of `page_table_l4_b` are those from 128 on of the
block `kernel`. -/
def createPageTableForProcess (boot : Boot) (kernel : ℕ) (s : Machine)
    (pid blocksCount startBlock : ℕ) : Option Machine := do
  let (addr, map) ← getAFreeBlockAddr boot s.memoryMap
  let l4 := blockAt addr
  let s := { s with memoryMap := map }.eraseBlock l4
  let (_, _, s) ← overLines
    (createTable boot (createLoop boot startBlock (u64 (blocksCount + startBlock)) 2) l4)
    ((finRange 512).filter fun i => i.val < 128) (0, s)
  let s := ((finRange 512).filter fun i => 128 ≤ i.val ∧ i.val < 256).foldl
    (fun s i => s.setLine l4 i (s.block kernel i)) s
  some { s with processesCr3 := update s.processesCr3 pid l4 }

/-! ## Pages in the order of the loops -/

/-- The number of the first page below a path. -/
def firstPage (p : List (Fin 512)) : ℕ :=
  p.foldl (fun n i => n * 512 + i.val) 0 * 512 ^ (4 - p.length)

variable {boot : Boot} {s s' s₀ : Machine} {p q : List (Fin 512)} {i : Fin 512}
  {startBlock stop l4 table b n m k d : ℕ}

theorem firstPage_snoc (hd : p.length + d = 3) :
    firstPage (p ++ [i]) = firstPage p + i * 512 ^ d := by
  rw [firstPage, firstPage, foldl_append, length_append, length_singleton,
    show 4 - (p.length + 1) = d by omega, show 4 - p.length = d + 1 by omega, pow_succ]
  simp only [foldl_cons, foldl_nil]
  ring

theorem firstPage_pagePath {v : ℕ} (hv : v < HM) : firstPage (pagePath v) = v / 4096 := by
  unfold HM at hv
  simp only [firstPage, pagePath, foldl_cons, foldl_nil, tableIndex_val, length_cons,
    length_nil]
  omega

theorem digit_inj {x y : ℕ} {i j : Fin 512} (h : x * 512 + i.val = y * 512 + j.val) :
    x = y ∧ i = j := by
  omega

theorem firstPage_inj (hp : p.length = 4) (hq : q.length = 4) (h : firstPage p = firstPage q) :
    p = q := by
  obtain ⟨a, b, c, d, rfl⟩ := length_eq_four.mp hp
  obtain ⟨a', b', c', d', rfl⟩ := length_eq_four.mp hq
  rw [firstPage, firstPage, hp, hq, Nat.sub_self, pow_zero, mul_one, mul_one] at h
  obtain ⟨h3, hd⟩ := digit_inj h
  obtain ⟨h2, hc⟩ := digit_inj h3
  obtain ⟨h1, hb⟩ := digit_inj h2
  rw [(digit_inj h1).2, hb, hc, hd]

/-! ## What the loops have built -/

/-- The machine, with a level 4 table that no process has yet. -/
def Machine.under (s : Machine) (l4 : ℕ) : Machine :=
  { s with processesCr3 := fun _ => l4 }

/-- The blocks of the tree were free in the state `s₀`, and the blocks that were not are as they
were. -/
structure Owns (l4 : ℕ) (s₀ s : Machine) : Prop where
  treeOk : (s.under l4).TreeOk 0
  fresh : ∀ b, (s.under l4).Uses 0 b → s₀.memoryMap b = 0 ∧ s.memoryMap b ≠ 0
  kept : ∀ x, s₀.memoryMap x ≠ 0 → s.memoryMap x ≠ 0 ∧ s.block x = s₀.block x

/-- The loops have come to the page `n` and to a table at the end of `p`. The places behind are
empty, and the pages before have frames from `startBlock` on, each its own. -/
structure Built (startBlock stop l4 : ℕ) (s₀ : Machine) (n : ℕ) (s : Machine)
    (p : List (Fin 512)) : Prop where
  owns : Owns l4 s₀ s
  behind : ∀ q ∈ lowPaths 4, (s.under l4).node 0 q ≠ none → firstPage q < n ∨ q <+: p
  pages : ∀ q ∈ lowPaths 4, q.length = 4 → ((s.under l4).node 0 q ≠ none ↔
    startBlock ≤ firstPage q ∧ firstPage q < stop ∧ firstPage q < n)
  frames : ∀ q ∈ lowPaths 4, ∀ r ∈ lowPaths 4, q.length = 4 → r.length = 4 → ∀ b,
    (s.under l4).node 0 q = some b → (s.under l4).node 0 r = some b → q = r

/-- A free block has been linked into an empty place at the end of a path. -/
structure Links (l4 : ℕ) (s s' : Machine) (p : List (Fin 512)) (b : ℕ) : Prop where
  treeOk : (s'.under l4).TreeOk 0
  edits : Edits 0 (s.under l4) (s'.under l4) p (some b)
  grows : Grows 0 (s.under l4) (s'.under l4)
  kept : ∀ x, s.memoryMap x ≠ 0 → ¬ (s.under l4).Uses 0 x → s'.block x = s.block x
  empty : (s.under l4).node 0 p = none
  unused : ¬ (s.under l4).Uses 0 b

theorem Links.owns (hl : Links l4 s s' p b) (h : Owns l4 s₀ s) : Owns l4 s₀ s' where
  treeOk := hl.treeOk
  fresh c hc := by
    rcases hl.grows.uses c hc with hold | ⟨hfree, hmarked⟩
    · exact ⟨(h.fresh c hold).1, hl.grows.marked c (h.fresh c hold).2⟩
    · exact ⟨not_not.mp fun hne => (h.kept c hne).1 hfree, hmarked⟩
  kept x hx := by
    obtain ⟨hmarked, hblock⟩ := h.kept x hx
    exact ⟨hl.grows.marked x hmarked,
      (hl.kept x hmarked fun huses => hx (h.fresh x huses).1).trans hblock⟩

theorem Links.node_of_some (hl : Links l4 s s' p b) (hq : q ∈ lowPaths 4) {c : ℕ}
    (hc : (s.under l4).node 0 q = some c) : (s'.under l4).node 0 q = some c := by
  refine (hl.edits.other q hq ?_).trans hc
  rintro rfl
  cases hl.empty.symm.trans hc

section

variable (h : Built startBlock stop l4 s₀ n s p)
include h

/-- The place of the page to which the loops have come is empty. -/
theorem Built.line_eq_zero (hlow : p ++ [i] ∈ lowPaths 4) (ht : (s.under l4).node 0 p = some table)
    (hn : firstPage (p ++ [i]) = n) :
    s.block table i = 0 := by
  by_contra hne
  rcases h.behind _ hlow (by rw [node_snoc ht]; exact mt next_eq_none.mp hne) with hlt | hpre
  · omega
  · simpa using hpre.length_le

/-- A table is linked. -/
theorem Built.linkTable (hl : Links l4 s s' (p ++ [i]) b) (hp : p.length < 3) :
    Built startBlock stop l4 s₀ n s' (p ++ [i]) := by
  have hsame : ∀ q ∈ lowPaths 4, q.length = 4 → (s'.under l4).node 0 q = (s.under l4).node 0 q :=
    fun q hq hlen => hl.edits.frames (by simpa using Nat.succ_lt_succ hp) hq hlen
  refine ⟨hl.owns h.owns, ?_, ?_, ?_⟩
  · intro q hq hne
    by_cases heq : q = p ++ [i]
    · exact .inr (heq ▸ prefix_refl _)
    · rw [hl.edits.other q hq heq] at hne
      exact (h.behind q hq hne).imp_right fun hpre => hpre.trans (prefix_append _ _)
  · intro q hq hlen
    rw [hsame q hq hlen]
    exact h.pages q hq hlen
  · intro q hq r hr hqlen hrlen c hqc hrc
    rw [hsame q hq hqlen] at hqc
    rw [hsame r hr hrlen] at hrc
    exact h.frames q hq r hr hqlen hrlen c hqc hrc

/-- A frame is linked. -/
theorem Built.linkPage (hl : Links l4 s s' (p ++ [i]) b) (hp : p.length = 3)
    (hn : firstPage (p ++ [i]) = n) (hstart : startBlock ≤ n) (hstop : n < stop) :
    Built startBlock stop l4 s₀ (n + 1) s' p := by
  have hlen : (p ++ [i]).length = 4 := by simp [hp]
  have hother : ∀ q ∈ lowPaths 4, q.length = 4 → q = p ++ [i] ∨
      firstPage q ≠ n ∧ (s'.under l4).node 0 q = (s.under l4).node 0 q := by
    intro q hq hq4
    refine or_iff_not_imp_left.mpr fun hne => ⟨fun heq => hne ?_, hl.edits.other q hq hne⟩
    exact firstPage_inj hq4 hlen (heq.trans hn.symm)
  refine ⟨hl.owns h.owns, ?_, ?_, ?_⟩
  · intro q hq hne
    by_cases heq : q = p ++ [i]
    · exact .inl (by rw [heq, hn]; omega)
    · rw [hl.edits.other q hq heq] at hne
      exact (h.behind q hq hne).imp_left fun hlt => by omega
  · intro q hq hq4
    rcases hother q hq hq4 with rfl | ⟨hne, hnode⟩
    · rw [hl.edits.self, hn]
      exact iff_of_true (by simp) ⟨hstart, hstop, by omega⟩
    · rw [hnode, h.pages q hq hq4]
      omega
  · intro q hq r hr hq4 hr4 c hqc hrc
    -- the new frame was not in use
    have hnew : ∀ r ∈ lowPaths 4, (s.under l4).node 0 r ≠ some b := fun r hr hb =>
      hl.unused ⟨r, hr, hb⟩
    rcases hother q hq hq4 with rfl | ⟨-, hqn⟩ <;> rcases hother r hr hr4 with rfl | ⟨-, hrn⟩
    · rfl
    · cases hl.edits.self.symm.trans hqc
      exact absurd (hrn.symm.trans hrc) (hnew r hr)
    · cases hl.edits.self.symm.trans hrc
      exact absurd (hqn.symm.trans hqc) (hnew q hq)
    · exact h.frames q hq r hr hq4 hr4 c (hqn.symm.trans hqc) (hrn.symm.trans hrc)

theorem Built.skip (hn : n < startBlock) :
    Built startBlock stop l4 s₀ (n + 1) s p := by
  refine ⟨h.owns, fun q hq hne => (h.behind q hq hne).imp_left (by omega), ?_, h.frames⟩
  intro q hq hlen
  rw [h.pages q hq hlen]
  omega

end

/-- The loop over the lines of a table has ended. -/
theorem Built.leave (h : Built startBlock stop l4 s₀ n s (p ++ [i]))
    (hn : firstPage (p ++ [i]) < n) : Built startBlock stop l4 s₀ n s p := by
  refine ⟨h.owns, fun q hq hne => ?_, h.pages, h.frames⟩
  rcases h.behind q hq hne with hlt | hpre
  · exact .inl hlt
  · rcases prefix_concat_iff.mp (by simpa using hpre) with heq | hpre
    · exact .inl (by simpa [heq] using hn)
    · exact .inr hpre

/-! ## The loops -/

/-- What a loop leaves that goes over the next `m` pages from the table at the end of `p`: the
`goto` has left it behind the last page, or it has come to its end, and what was there is still
there. -/
def Leaves (startBlock stop l4 : ℕ) (s₀ : Machine) (n m : ℕ) (s : Machine) (p : List (Fin 512)) :
    Bool × ℕ × Machine → Prop
  | (true, n', s') => stop ≤ n' ∧ ∃ p', Built startBlock stop l4 s₀ n' s' p'
  | (false, n', s') => n' = n + m ∧ Built startBlock stop l4 s₀ n' s' p ∧
    ∀ q ∈ lowPaths 4, ∀ c, (s.under l4).node 0 q = some c → (s'.under l4).node 0 q = some c

/-- **A loop over lines**, from what a round does. -/
theorem overLines_leaves {round : Fin 512 → ℕ × Machine → Option (Bool × ℕ × Machine)}
    (hp : p ∈ lowPaths 3) (hd : p.length + d = 3)
    (hround : ∀ i n s r, p ++ [i] ∈ lowPaths 4 → firstPage (p ++ [i]) = n →
      Built startBlock stop l4 s₀ n s p → (s.under l4).node 0 p = some table →
      round i (n, s) = some r → Leaves startBlock stop l4 s₀ n (512 ^ d) s p r)
    {is : List (Fin 512)} (hlines : is.map Fin.val = range' k m)
    (hlow : ∀ i ∈ is, p ++ [i] ∈ lowPaths 4) (hn : n = firstPage p + k * 512 ^ d)
    (h : Built startBlock stop l4 s₀ n s p) (ht : (s.under l4).node 0 p = some table)
      (hrun : overLines round is (n, s) = some r) :
    Leaves startBlock stop l4 s₀ n (m * 512 ^ d) s p r := by
  induction is generalizing k m n s with
  | nil =>
    cases hrun
    obtain rfl : m = 0 := by simpa using congrArg length hlines.symm
    exact ⟨by simp, h, fun _ _ _ => id⟩
  | cons i is ih =>
    obtain ⟨⟨left, n1, s1⟩, hfirst, hrest⟩ := bind_eq_some_iff.mp hrun
    obtain ⟨m, rfl⟩ : ∃ m', m = m' + 1 := ⟨is.length, by simpa using congrArg length hlines.symm⟩
    obtain ⟨rfl, hlines⟩ := cons.inj hlines
    have hfp : firstPage (p ++ [i]) = n := by rw [firstPage_snoc hd, hn]
    have hleaves := hround i n s _ (hlow i mem_cons_self) hfp h ht hfirst
    cases left with
    | true =>
      cases hrest
      exact hleaves
    | false =>
      obtain ⟨rfl, h1, hkept⟩ := hleaves
      have hpL := lowPaths_mono (show 3 ≤ 4 by decide) hp
      have hend := ih hlines (fun j hj => hlow j (mem_cons_of_mem i hj)) (by rw [hn]; ring) h1
        (hkept p hpL table ht) hrest
      obtain ⟨left, n', s'⟩ := r
      cases left with
      | true => exact hend
      | false =>
        obtain ⟨rfl, h', hkept'⟩ := hend
        exact ⟨by ring, h', fun q hq c hc => hkept' q hq c (hkept q hq c hc)⟩

section Rounds

variable (hboot : boot.totalMemoryBlocksCount ≤ 2 ^ 40) (hp : p ∈ lowPaths 3)
  (hlow : p ++ [i] ∈ lowPaths 4) (hn : firstPage (p ++ [i]) = n)
  (h : Built startBlock stop l4 s₀ n s p) (ht : (s.under l4).node 0 p = some table)
include hboot hp hlow hn h ht

/-- A free block is linked behind the line to which the loops have come. -/
theorem Built.links {addr : ℕ} {m : Machine}
    (hget : getAFreeBlockAddr boot s.memoryMap = some (addr, m.memoryMap))
    (hblock : ∀ x ≠ blockAt addr, m.block x = s.block x)
    (herased : p ++ [i] ∈ lowPaths 3 → ∀ j, m.block (blockAt addr) j = 0) :
    Links l4 s (m.setLine table i (newLine addr)) (p ++ [i]) (blockAt addr) := by
  obtain ⟨b, hb, hfound, -, rfl, hline⟩ := getAFreeBlockAddr_eq_some hboot hget
  obtain ⟨-, hfree, -⟩ := getAFreeBlock_eq_some hfound
  have hunused : ¬ (s.under l4).Uses 0 (blockAt addr) := fun hu => (h.owns.fresh _ hu).2 hfree
  have hzero : (s.under l4).block table i = 0 := h.line_eq_zero hlow ht hn
  obtain ⟨hok, he, hg, -⟩ := (Passes.new (m := m.under l4) hzero hb hfound rfl hblock herased).spec
    h.owns.treeOk hp ht id fun c hc hu => (h.owns.fresh c hu).2 hc.1
  rw [hline]
  refine ⟨hok, he, hg, fun x hx hxu => ?_, ?_, hunused⟩
  · have hxt : x ≠ table := by
      rintro rfl
      exact hxu ⟨p, lowPaths_mono (by decide) hp, ht⟩
    have hxb : x ≠ blockAt addr := by
      rintro rfl
      exact hx hfree
    rw [← hblock x hxb]
    exact funext fun j => setEntry_of_ne (.inl hxt)
  · rw [node_snoc ht]
    exact next_eq_none.mpr hzero

/-- A round of the innermost loop. -/
theorem createPage_leaves (hlen : p.length = 3)
    (hrun : createPage boot startBlock stop table i (n, s) = some r) :
    Leaves startBlock stop l4 s₀ n (512 ^ 0) s p r := by
  dsimp only [createPage] at hrun
  split_ifs at hrun with hstop hstart
  · cases hrun
    exact ⟨hstop, p, h⟩
  · cases hrun
    exact ⟨rfl, h.skip hstart, fun _ _ _ => id⟩
  · obtain ⟨⟨addr, map⟩, hget, rfl⟩ := map_eq_some_iff.mp hrun
    have hl := h.links (m := { s with memoryMap := map }) hboot hp hlow hn ht hget (fun _ _ => rfl)
      fun hmem => absurd hmem.1 (by simp [hlen])
    exact ⟨rfl, h.linkPage hl hlen hn (by omega) (by omega), fun q hq c => hl.node_of_some hq⟩

/-- A round of another loop. -/
theorem createTable_leaves {inner : ℕ → ℕ × Machine → Option (Bool × ℕ × Machine)}
    (hlen : p.length < 3)
    (hinner : ∀ t s1 r, Built startBlock stop l4 s₀ n s1 (p ++ [i]) →
      (s1.under l4).node 0 (p ++ [i]) = some t → inner t (n, s1) = some r →
      Leaves startBlock stop l4 s₀ n (512 ^ d) s1 (p ++ [i]) r)
        (hrun : createTable boot inner table i (n, s) = some r) :
    Leaves startBlock stop l4 s₀ n (512 ^ d) s p r := by
  obtain ⟨⟨addr, map⟩, hget, hrun⟩ := bind_eq_some_iff.mp hrun
  -- the table is erased before it is linked
  have hl :=
    h.links (m := { s with memoryMap := map }.eraseBlock (blockAt addr)) hboot hp hlow hn ht
    hget (fun x hx => update_of_ne hx _ _) fun _ j => by simp [eraseBlock]
  have hleaves := hinner _ _ r (h.linkTable hl hlen) hl.edits.self hrun
  obtain ⟨left, n', s'⟩ := r
  cases left with
  | true => exact hleaves
  | false =>
    obtain ⟨rfl, h', hkept⟩ := hleaves
    have hpos : 0 < 512 ^ d := Nat.pow_pos (by decide)
    exact ⟨rfl, h'.leave (by omega), fun q hq c hc => hkept q hq c (hl.node_of_some hq hc)⟩

end Rounds

theorem map_val_finRange : (finRange 512).map Fin.val = range' 0 512 := by
  rw [map_coe_finRange_eq_range, range_eq_range']

theorem mem_lowPaths_snoc (hp : p ∈ lowPaths 3) (hne : p ≠ []) (hm : p.length < m) (i : Fin 512) :
    p ++ [i] ∈ lowPaths m := by
  refine ⟨by rw [length_append]; exact hm, fun j hj => hp.2 j ?_⟩
  rwa [head?_append_of_ne_nil _ hne] at hj

/-- **The loops below a table.** -/
theorem createLoop_leaves (hboot : boot.totalMemoryBlocksCount ≤ 2 ^ 40) (hp : p ∈ lowPaths 3)
    (hne : p ≠ []) (hd : p.length + d = 3) (hn : firstPage p = n)
    (h : Built startBlock stop l4 s₀ n s p) (ht : (s.under l4).node 0 p = some table)
    (hrun : createLoop boot startBlock stop d table (n, s) = some r) :
    Leaves startBlock stop l4 s₀ n (512 ^ (d + 1)) s p r := by
  rw [pow_succ, mul_comm]
  induction d generalizing p n s table r with
  | zero =>
    rw [createLoop] at hrun
    refine overLines_leaves hp hd ?_ map_val_finRange
      (fun i _ => mem_lowPaths_snoc hp hne (by omega) i) (by simp [hn]) h ht hrun
    exact fun i n s r hi hn h ht => createPage_leaves hboot hp hi hn h ht hd
  | succ d ih =>
    rw [createLoop] at hrun
    refine overLines_leaves hp hd ?_ map_val_finRange
      (fun i _ => mem_lowPaths_snoc hp hne (by omega) i) (by simp [hn]) h ht hrun
    intro i n s r hi hn h ht hround
    refine createTable_leaves hboot hp hi hn h ht (by omega) ?_ hround
    intro t s1 r h1 ht1 hrun1
    rw [pow_succ, mul_comm]
    exact ih (mem_lowPaths_snoc hp hne (by omega) i) (by simp) (by simp; omega) hn h1 ht1 hrun1

/-! ## The upper half -/

/-- Lines of the upper half are copied. -/
theorem foldl_setLine_high {o : ℕ} {l : List (Fin 512)} (hl : ∀ i ∈ l, 128 ≤ i.val)
    (hok : (s.under l4).TreeOk 0) (ho : o ≠ l4)
    (hs' : l.foldl (fun s i => s.setLine l4 i (s.block o i)) s = s') :
    (∀ q ∈ lowPaths 4, (s'.under l4).node 0 q = (s.under l4).node 0 q) ∧
      ∀ j, s'.block l4 j = if j ∈ l then s.block o j else s.block l4 j := by
  induction l generalizing s with
  | nil =>
    obtain rfl := hs'
    exact ⟨fun _ _ => rfl, fun _ => rfl⟩
  | cons i l ih =>
    obtain ⟨hi, hl⟩ := forall_mem_cons.mp hl
    -- no path of the low half goes through the line
    have hhigh : ∀ m, [] ++ [i] ∉ lowPaths m := fun m hmem => absurd (hmem.2 i rfl) (by omega)
    obtain ⟨hok', he⟩ := hok.setLine (s.block o i) (p := []) (i := i)
      ⟨by simp, by simp⟩ (rfl : _ = some l4) (fun h => absurd h (hhigh 3))
      (fun h => absurd h (hhigh 3))
      fun h => absurd h (hhigh 3)
    obtain ⟨hnode, hlines⟩ := ih (s := s.setLine l4 i (s.block o i)) hl hok' hs'
    have hsame : ∀ x j, x ≠ l4 ∨ j ≠ i → (s.setLine l4 i (s.block o i)).block x j = s.block x j :=
      fun x j => setEntry_of_ne
    refine ⟨fun q hq => (hnode q hq).trans (he.other q hq ?_), fun j => (hlines j).trans ?_⟩
    · rintro rfl
      exact hhigh 4 hq
    · rw [hsame o j (.inl ho)]
      by_cases hji : j = i
      · subst hji
        have hself : (s.setLine l4 j (s.block o j)).block l4 j = s.block o j := setEntry_self
        simp [hself]
      · simp [hsame l4 j (.inr hji), hji]

/-! ## The function -/

/-- Before the loops the tree is an erased table. -/
theorem Built.start (hfree : s.memoryMap l4 = 0)
    (hmap : s'.memoryMap = setMemoryBlockUsedWhenBoot s.memoryMap l4 true)
    (hblock : s'.block = update s.block l4 fun _ => 0) :
    Built startBlock stop l4 s 0 s' [] := by
  have hempty : ∀ j : Fin 512, j.val < 128 →
      (s'.under l4).block ((s'.under l4).processesCr3 0) j = 0 := by
    intro j _
    change s'.block l4 j = 0
    rw [hblock, update_self]
  have hnil : ∀ q ∈ lowPaths 4, (s'.under l4).node 0 q ≠ none → q = [] := by
    intro q hq hne
    obtain ⟨c, hc⟩ := ne_none_iff_exists'.mp hne
    exact eq_nil_of_node hempty hq hc
  refine ⟨⟨treeOk_of_empty hempty, ?_, ?_⟩, ?_, ?_, ?_⟩
  · intro b hb
    obtain rfl : b = l4 := eq_cr3_of_uses hempty hb
    exact ⟨hfree, by rw [hmap, setMemoryBlockUsedWhenBoot_true]; decide⟩
  · intro x hx
    refine ⟨keepsMarks_of_map hmap x hx, ?_⟩
    rw [hblock, update_of_ne]
    rintro rfl
    exact hx hfree
  · intro q hq hne
    exact .inr (hnil q hq hne ▸ prefix_refl _)
  · intro q hq hlen
    refine iff_of_false (fun hne => ?_) (by omega)
    rw [hnil q hq hne] at hlen
    cases hlen
  · intro q hq r hr _ _ b hqb hrb
    rw [hnil q hq (by simp [hqb]), hnil r hr (by simp [hrb])]

/-- The loop over the lines of the level 4 table comes behind the last page. -/
theorem Built.low (hboot : boot.totalMemoryBlocksCount ≤ 2 ^ 40) (hstop : stop ≤ HM / 4096)
    (h : Built startBlock stop l4 s₀ 0 s [])
    (hrun : overLines (createTable boot (createLoop boot startBlock stop 2) l4)
      ((finRange 512).filter fun i => i.val < 128) (0, s) = some r) :
    ∃ p, Built startBlock stop l4 s₀ r.2.1 r.2.2 p ∧ stop ≤ r.2.1 := by
  have hnil : [] ∈ lowPaths 3 := ⟨by simp, by simp⟩
  have hleaves : Leaves startBlock stop l4 s₀ 0 (128 * 512 ^ 3) s [] r := by
    refine overLines_leaves (k := 0) hnil rfl ?_ (by decide +kernel)
      (fun i hi => ⟨by simp, by simpa using hi⟩) (by simp [firstPage]) h rfl hrun
    intro i n s r hi hn h ht hround
    refine createTable_leaves hboot hnil hi hn h ht (by decide) ?_ hround
    intro t s1 r h1 ht1
    exact createLoop_leaves hboot ⟨by simp, hi.2⟩ (by simp) rfl hn h1 ht1
  obtain ⟨left, n, s1⟩ := r
  cases left with
  | true =>
    obtain ⟨hle, p, hbuilt⟩ := hleaves
    exact ⟨p, hbuilt, hle⟩
  | false =>
    obtain ⟨rfl, hbuilt, -⟩ := hleaves
    exact ⟨[], hbuilt, hstop.trans (show HM / 4096 ≤ 0 + 128 * 512 ^ 3 by decide)⟩

/-- **The first page table is exact**: the pages asked for are mapped, to different frames, and the
upper half is the kernel's. -/
theorem createPageTable_exact (hboot : boot.totalMemoryBlocksCount ≤ 2 ^ 40)
    {kernel pid blocksCount : ℕ} (hfits : startBlock + blocksCount ≤ HM / 4096)
    (hkernel : s.memoryMap kernel ≠ 0)
    (h : createPageTableForProcess boot kernel s pid blocksCount startBlock = some s') :
    (∀ v < HM, isPaged s' pid v = true ↔
      startBlock ≤ v / 4096 ∧ v / 4096 < startBlock + blocksCount) ∧
    (∀ v < HM, ∀ w < HM, ∀ b, s'.frame pid v = some b → s'.frame pid w = some b →
      v / 4096 = w / 4096) ∧
    ∀ i : Fin 512, 128 ≤ i.val → i.val < 256 →
      s'.block (s'.processesCr3 pid) i = s.block kernel i := by
  have hstop : u64 (blocksCount + startBlock) = startBlock + blocksCount := by
    rw [Nat.add_comm, u64_of_lt]
    unfold HM at hfits
    omega
  have hhigh : ∀ i : Fin 512, i ∈ (finRange 512).filter (fun i => 128 ≤ i.val ∧ i.val < 256) ↔
      128 ≤ i.val ∧ i.val < 256 := by simp
  rw [createPageTableForProcess, hstop] at h
  generalize (finRange 512).filter (fun i => 128 ≤ i.val ∧ i.val < 256) = l at h hhigh
  obtain ⟨⟨addr, map⟩, hget, hrest⟩ := bind_eq_some_iff.mp h
  obtain ⟨⟨left, n, s₁⟩, hrun, hend⟩ := bind_eq_some_iff.mp hrest
  obtain ⟨b, -, hfound, -, rfl, -⟩ := getAFreeBlockAddr_eq_some hboot hget
  obtain ⟨-, hfree, rfl⟩ := getAFreeBlock_eq_some hfound
  obtain ⟨p, hbuilt, hlast⟩ := Built.low hboot hfits (Built.start hfree rfl rfl) hrun
  have hne : kernel ≠ blockAt addr := by
    rintro rfl
    exact hkernel hfree
  dsimp only at hbuilt hlast hend
  generalize hcopy :
    l.foldl (fun s i => s.setLine (blockAt addr) i (s.block kernel i)) s₁ = s₂ at hend
  obtain ⟨hnode, hlines⟩ :=
    foldl_setLine_high (fun i hi => ((hhigh i).mp hi).1) hbuilt.owns.treeOk hne hcopy
  have hblock : s'.block = s₂.block := by rw [← some.inj hend]
  have hcr3 : s'.processesCr3 pid = blockAt addr := by
    rw [← some.inj hend]
    exact update_self ..
  have hframe : ∀ v < HM, s'.frame pid v = (s₁.under (blockAt addr)).node 0 (pagePath v) := by
    intro v hv
    rw [← hnode _ (pagePath_mem hv), frame, node, hcr3, hblock]
    rfl
  refine ⟨fun v hv => ?_, fun v hv w hw b hvb hwb => ?_, fun i hge hlt => ?_⟩
  · rw [isPaged_eq, hframe v hv, ← ne_none_iff_isSome, hbuilt.pages _ (pagePath_mem hv) rfl,
      firstPage_pagePath hv]
    omega
  · rw [hframe v hv] at hvb
    rw [hframe w hw] at hwb
    exact (pagePath_inj hv hw).mp
      (hbuilt.frames _ (pagePath_mem hv) _ (pagePath_mem hw) rfl rfl b hvb hwb)
  · rw [hcr3, hblock, hlines, if_pos ((hhigh i).mpr ⟨hge, hlt⟩),
      (hbuilt.owns.kept kernel hkernel).2]

/-- A process with one page. -/
theorem createPageTable_exact_one :
    ∃ s', createPageTableForProcess smallBoot 2 smallMachine 1 1 1 = some s' ∧
    isPaged s' 1 0x1000 = true ∧ isPaged s' 1 0x2000 = false := by
  refine exists_of_eval (Q := fun _ => True) (by decide +kernel) fun s' hs' _ => ?_
  have hpaged := (createPageTable_exact (by decide) (by decide) (by decide) hs').1
  refine ⟨(hpaged _ (by decide)).mpr (by decide), ?_⟩
  rw [← Bool.not_eq_true, hpaged _ (by decide)]
  decide

end CarrotOS
