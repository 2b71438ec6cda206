import CarrotOS.Mem.Paging

/-!
# Giving blocks back

`increase_paging_of_process_with_virt_addr` takes blocks from `memory_map` by their index. The
paths that give them back pass something else: `decrease_paging_of_process_with_virt_addr` passes
the line, which is the physical address with flags, and `free_page_hm` passes the address in the
upper half, whose block number is larger by `2 ^ 34`. So a call of the first kind clears the
entries at the values of the lines it drops, and one of the second kind clears the entries
`2 ^ 34` behind those of the blocks.
-/

namespace CarrotOS

open RadixTree Machine Function List

variable {b lv maxPageline : ℕ} {free : MemoryMap → ℕ → MemoryMap} {q : List (Fin 512)}

/-! ## The source -/

def freeBlock (map : MemoryMap) (blockAddr : ℕ) : MemoryMap :=
  setMemoryBlockUsedWhenBoot map (divCeil blockAddr 4096) false

def pagelineToLowAddr (pageLine : ℕ) : ℕ :=
  pageLine &&& 0x000FFFFFFFFFF000

/-- The loop of `free_page_hm` over the lines of a table, with what it does for each of them. -/
def freeLines (block : ℕ → Fin 512 → ℕ) (maxPageline : ℕ) (free : MemoryMap → ℕ → MemoryMap)
    (map : MemoryMap) (page : ℕ) : MemoryMap :=
  ((finRange 512).filter fun i => i.val < maxPageline).foldl
    (fun map i =>
      let pageEntryAddr := pagelineToLowAddr (block page i)
      if pageEntryAddr = 0 then map else free map (pageEntryAddr + HM))
    map

def freePageHm (block : ℕ → Fin 512 → ℕ) : ℕ → MemoryMap → ℕ → MemoryMap
  | 0, map, pageAddr | 1, map, pageAddr =>
    freeBlock (freeLines block 512 freeBlock map (blockAt pageAddr)) pageAddr
  | lv + 2, map, pageAddr =>
    freeBlock
      (freeLines block (if lv + 2 = 4 then HM >>> 39 else 512) (freePageHm block (lv + 1)) map
        (blockAt pageAddr))
      pageAddr

/-! ## Clearing entries of the map -/

structure Clears (S : Set ℕ) (map map' : MemoryMap) : Prop where
  cleared : ∀ x ∈ S, map' x = 0
  kept : ∀ x ∉ S, map' x = map x

namespace Clears

variable {S T : Set ℕ} {map map' map'' : MemoryMap}

theorem refl (map : MemoryMap) : Clears ∅ map map :=
  ⟨fun _ h => h.elim, fun _ _ => rfl⟩

theorem trans (h : Clears S map map') (h' : Clears T map' map'') :
    Clears (S ∪ T) map map'' where
  cleared x hx := by
    by_cases hT : x ∈ T
    · exact h'.cleared x hT
    · rw [h'.kept x hT]
      exact h.cleared x (hx.resolve_right hT)
  kept x hx := by
    rw [h'.kept x fun hT => hx (.inr hT), h.kept x fun hS => hx (.inl hS)]

theorem congr (h : Clears S map map') (hST : ∀ x, x ∈ S ↔ x ∈ T) : Clears T map map' :=
  ⟨fun x hx => h.cleared x ((hST x).mpr hx), fun x hx => h.kept x fun hS => hx ((hST x).mp hS)⟩

theorem set_false (map : MemoryMap) (index : ℕ) :
    Clears {index} map (setMemoryBlockUsedWhenBoot map index false) where
  cleared x hx := by
    rw [Set.mem_singleton_iff.mp hx, setMemoryBlockUsedWhenBoot_false]
  kept x hx := setMemoryBlockUsedWhenBoot_ne false hx

theorem foldl {ι : Type*} {f : MemoryMap → ι → MemoryMap} {S : ι → Set ℕ} {l : List ι}
    (h : ∀ i ∈ l, ∀ m, Clears (S i) m (f m i)) (map : MemoryMap) :
    Clears {x | ∃ i ∈ l, x ∈ S i} map (l.foldl f map) := by
  induction l generalizing map with
  | nil => exact (refl map).congr (by simp)
  | cons i l ih =>
    have hhead := h i mem_cons_self map
    have htail := ih (fun j hj => h j (mem_cons_of_mem i hj)) (f map i)
    exact (hhead.trans htail).congr (by simp)

theorem iff_clears (h : Clears S map map') :
    Clears T map map' ↔ ∀ x, Xor (x ∈ S) (x ∈ T) → map x = 0 := by
  constructor
  · rintro hT x (⟨hS, hnot⟩ | ⟨hmem, hS⟩)
    · rw [← hT.kept x hnot, h.cleared x hS]
    · rw [← h.kept x hS, hT.cleared x hmem]
  · intro hxor
    constructor
    · intro x hx
      by_cases hS : x ∈ S
      · exact h.cleared x hS
      · rw [h.kept x hS, hxor x (.inr ⟨hx, hS⟩)]
    · intro x hx
      by_cases hS : x ∈ S
      · rw [h.cleared x hS, hxor x (.inl ⟨hS, hx⟩)]
      · exact h.kept x hS

end Clears

/-! ## `free_page_hm` -/

theorem pagelineToLowAddr_eq (line : ℕ) : pagelineToLowAddr line = pageLineToBlock line * 4096 := by
  have hmod : pagelineToLowAddr line % 2 ^ 12 = 0 := by
    rw [pagelineToLowAddr, Nat.and_mod_two_pow]
    exact Nat.and_zero _
  have hdiv : pageLineToBlock line = pagelineToLowAddr line / 4096 := by
    rw [pageLineToBlock, pageLineToAddr, blockAt, Nat.add_sub_cancel, pagelineToLowAddr]
  omega

theorem freeBlock_clears (map : MemoryMap) (b : ℕ) :
    Clears {b + 2 ^ 34} map (freeBlock map (b * 4096 + HM)) := by
  have hindex : divCeil (b * 4096 + HM) 4096 = b + 2 ^ 34 := by
    unfold divCeil HM
    rw [if_neg (by omega)]
    omega
  rw [freeBlock, hindex]
  exact Clears.set_false map _

/-- The blocks within a number of levels below a table. -/
def below (block : ℕ → Fin 512 → ℕ) (lv page : ℕ) : Set ℕ :=
  {b | ∃ q : List (Fin 512), q.length ≤ lv ∧ locate pageLineToBlock block page q = some b}

def shifted (S : Set ℕ) : Set ℕ :=
  {x | ∃ b ∈ S, x = b + 2 ^ 34}

variable {block : ℕ → Fin 512 → ℕ} {page : ℕ}

/-- The loop over the lines of a table, when no line refers to block 0. -/
theorem freeLines_clears {S : ℕ → Set ℕ}
    (hzero : ∀ i : Fin 512, i.val < maxPageline → block page i ≠ 0 →
      pageLineToBlock (block page i) ≠ 0)
    (hfree : ∀ i : Fin 512, i.val < maxPageline → block page i ≠ 0 → ∀ m,
      Clears (S (pageLineToBlock (block page i))) m
        (free m (pageLineToBlock (block page i) * 4096 + HM)))
    (map : MemoryMap) :
    Clears {x | ∃ i : Fin 512, i.val < maxPageline ∧ block page i ≠ 0 ∧
      x ∈ S (pageLineToBlock (block page i))} map (freeLines block maxPageline free map page) := by
  have hstep : ∀ i ∈ (finRange 512).filter fun i => i.val < maxPageline, ∀ m,
      Clears {x | block page i ≠ 0 ∧ x ∈ S (pageLineToBlock (block page i))} m
        (if pagelineToLowAddr (block page i) = 0 then m
          else free m (pagelineToLowAddr (block page i) + HM)) := by
    intro i hi m
    have hlt : i.val < maxPageline := by simpa using hi
    by_cases hline : block page i = 0
    · have hlow : pagelineToLowAddr (block page i) = 0 := by
        rw [hline]
        rfl
      rw [if_pos hlow]
      exact (Clears.refl m).congr (by simp [hline])
    · have hlow : pagelineToLowAddr (block page i) ≠ 0 := by
        rw [pagelineToLowAddr_eq]
        exact Nat.mul_ne_zero (hzero i hlt hline) (by decide)
      rw [if_neg hlow, pagelineToLowAddr_eq]
      exact (hfree i hlt hline m).congr (by simp [hline])
  refine (Clears.foldl hstep map).congr ?_
  simp

theorem locate_cons_eq_some {i : Fin 512} :
    locate pageLineToBlock block page (i :: q) = some b ↔ block page i ≠ 0 ∧
      locate pageLineToBlock block (pageLineToBlock (block page i)) q = some b := by
  rw [locate_cons]
  by_cases hline : block page i = 0
  · simp [next_eq_none.mpr hline, hline]
  · simp [next_of_ne hline, hline]

theorem mem_below_succ :
    b ∈ below block (lv + 1) page ↔ b = page ∨
      ∃ i, block page i ≠ 0 ∧ b ∈ below block lv (pageLineToBlock (block page i)) := by
  constructor
  · rintro ⟨_ | ⟨i, q⟩, hlen, hq⟩
    · exact .inl (Option.some.inj hq).symm
    · obtain ⟨hne, hq⟩ := locate_cons_eq_some.mp hq
      exact .inr ⟨i, hne, q, by simpa using hlen, hq⟩
  · rintro (rfl | ⟨i, hne, q, hlen, hq⟩)
    · exact ⟨[], Nat.zero_le _, rfl⟩
    · exact ⟨i :: q, by simpa using hlen, locate_cons_eq_some.mpr ⟨hne, hq⟩⟩

theorem mem_below_zero : b ∈ below block 0 page ↔ b = page := by
  constructor
  · rintro ⟨q, hlen, hq⟩
    obtain rfl := eq_nil_of_length_eq_zero (Nat.le_zero.mp hlen)
    exact (Option.some.inj hq).symm
  · rintro rfl
    exact ⟨[], Nat.zero_le _, rfl⟩

theorem blockAt_mul_add (b : ℕ) : blockAt (b * 4096 + HM) = b := by
  rw [blockAt, Nat.add_sub_cancel, Nat.mul_div_cancel _ (by decide)]

/-- The lines of a table are followed, and then the table itself is given back. -/
theorem freeTable_clears (S : ℕ → Set ℕ)
    (hzero : ∀ i : Fin 512, i.val < maxPageline → block page i ≠ 0 →
      pageLineToBlock (block page i) ≠ 0)
    (hfree : ∀ i : Fin 512, i.val < maxPageline → block page i ≠ 0 → ∀ m,
      Clears (shifted (S (pageLineToBlock (block page i)))) m
        (free m (pageLineToBlock (block page i) * 4096 + HM)))
    (map : MemoryMap) :
    Clears (shifted {b | b = page ∨ ∃ i : Fin 512, i.val < maxPageline ∧ block page i ≠ 0 ∧
      b ∈ S (pageLineToBlock (block page i))}) map
      (freeBlock (freeLines block maxPageline free map (blockAt (page * 4096 + HM)))
        (page * 4096 + HM)) := by
  rw [blockAt_mul_add]
  have hlines := freeLines_clears (S := fun b => shifted (S b)) hzero hfree map
  refine (hlines.trans (freeBlock_clears _ page)).congr ?_
  intro x
  constructor
  · rintro (⟨i, hi, hne, b, hb, rfl⟩ | hx)
    · exact ⟨b, .inr ⟨i, hi, hne, hb⟩, rfl⟩
    · exact ⟨page, .inl rfl, hx⟩
  · rintro ⟨b, rfl | ⟨i, hi, hne, hb⟩, rfl⟩
    · exact .inr rfl
    · exact .inl ⟨i, hi, hne, b, hb, rfl⟩

theorem freePageHm_clears_below (hlv : lv < 3)
    (hzero : ∀ q ≠ [], q.length ≤ lv + 1 → locate pageLineToBlock block page q ≠ some 0)
    (map : MemoryMap) :
    Clears (shifted (below block (lv + 1) page)) map
      (freePageHm block (lv + 1) map (page * 4096 + HM)) := by
  induction lv generalizing page map with
  | zero =>
    refine (freeTable_clears (below block 0) ?_ ?_ map).congr (by simp [shifted, mem_below_succ])
    · intro i _ hne h
      exact hzero [i] (by simp) (by simp) (locate_cons_eq_some.mpr ⟨hne, by rw [h]; rfl⟩)
    · intro i _ _ m
      exact (freeBlock_clears m _).congr (by simp [shifted, mem_below_zero])
  | succ lv ih =>
    rw [freePageHm, if_neg (by omega)]
    refine (freeTable_clears (below block (lv + 1)) ?_ ?_ map).congr
      (by simp [shifted, mem_below_succ])
    · intro i _ hne h
      exact hzero [i] (by simp) (by simp) (locate_cons_eq_some.mpr ⟨hne, by rw [h]; rfl⟩)
    · intro i _ hne m
      refine ih (by omega) ?_ m
      intro q _ hlen hq
      exact hzero (i :: q) (by simp) (by simpa using hlen) (locate_cons_eq_some.mpr ⟨hne, hq⟩)

variable {s s' : Machine} {pid : ℕ}

theorem uses_iff :
    s.Uses pid b ↔ b = s.processesCr3 pid ∨ ∃ i : Fin 512, i.val < 128 ∧
      s.block (s.processesCr3 pid) i ≠ 0 ∧
      b ∈ below s.block 3 (pageLineToBlock (s.block (s.processesCr3 pid) i)) := by
  constructor
  · rintro ⟨_ | ⟨i, q⟩, ⟨hlen, hlow⟩, hq⟩
    · exact .inl (Option.some.inj hq).symm
    · obtain ⟨hne, hq⟩ := locate_cons_eq_some.mp hq
      exact .inr ⟨i, hlow i rfl, hne, q, Nat.le_of_succ_le_succ hlen, hq⟩
  · rintro (rfl | ⟨i, hi, hne, q, hlen, hq⟩)
    · exact ⟨[], ⟨by simp, by simp⟩, rfl⟩
    · exact ⟨i :: q, ⟨Nat.succ_le_succ hlen, by simpa using hi⟩,
        locate_cons_eq_some.mpr ⟨hne, hq⟩⟩

/-- **`free_page_hm`** for a whole address space clears the entries `2 ^ 34` behind those of the
blocks. -/
theorem freePageHm_clears (hzero : ¬ s.Uses pid 0) (map : MemoryMap) :
    Clears (shifted {b | s.Uses pid b}) map
      (freePageHm s.block 4 map (s.processesCr3 pid * 4096 + HM)) := by
  refine (freeTable_clears (below s.block 3) ?_ ?_ map).congr ?_
  · intro i hi hne h
    exact hzero (uses_iff.mpr (.inr ⟨i, hi, hne, [], by simp, by rw [h]; rfl⟩))
  · intro i hi hne m
    refine freePageHm_clears_below (by decide) ?_ m
    intro q _ hlen hq
    exact hzero (uses_iff.mpr (.inr ⟨i, hi, hne, q, hlen, hq⟩))
  · intro x
    simp only [shifted, Set.mem_ofPred_eq, uses_iff]
    rfl

/-! ## The lines on the path of a page -/

/-- The number of lines that are missing on the path. -/
def missing (block : ℕ → Fin 512 → ℕ) : ℕ → List (Fin 512) → ℕ
  | _, [] => 0
  | table, i :: path =>
    if block table i = 0 then path.length + 1
    else missing block (pageLineToBlock (block table i)) path

/-- The tables on the path hold no line off the path. -/
def barren (block : ℕ → Fin 512 → ℕ) : ℕ → List (Fin 512) → Bool
  | _, [] => true
  | table, i :: path =>
    decide (∀ j, j ≠ i → block table j = 0) &&
      (decide (block table i = 0) || barren block (pageLineToBlock (block table i)) path)

/-- The lines on the path behind which there is nothing off the path. -/
def spared (block : ℕ → Fin 512 → ℕ) : ℕ → List (Fin 512) → List ℕ
  | _, [] => []
  | table, i :: path =>
    if block table i = 0 then []
    else (if barren block (pageLineToBlock (block table i)) path then [block table i] else []) ++
      spared block (pageLineToBlock (block table i)) path

variable {boot : Boot} {p path : List (Fin 512)} {i : Fin 512} {table junk phys : ℕ}

theorem ne_of_not_below {x : ℕ} (hok : s.TreeOk pid) (hp : p ∈ lowPaths 3)
    (ht : s.node pid p = some table) (hq : q ∈ lowPaths 3) (hx : s.node pid q = some x)
    (hpre : ¬ p <+: q) : x ≠ table := by
  rintro rfl
  exact hpre (hok p hp q hq x ht hx ▸ prefix_refl p)

theorem line_of_node (ht : s.node pid p = some table)
    (hmapped : s.node pid (p ++ i :: path) ≠ none) :
    s.block table i ≠ 0 ∧ s.node pid (p ++ [i]) = some (pageLineToBlock (s.block table i)) := by
  have hne : s.block table i ≠ 0 := by
    intro hzero
    apply hmapped
    rw [node, locate_append, ← node, ht, Option.bind_some, locate_cons, next_eq_none.mpr hzero,
      Option.bind_none]
  exact ⟨hne, by rw [node_snoc ht, next_of_ne hne]⟩

/-- A decrease of a mapped page clears the entries at the values of the lines that it drops. -/
theorem decreaseFrom_clears (hok : s.TreeOk pid) (hp : p ++ path ∈ lowPaths 4)
    (ht : s.node pid p = some table) (hmapped : s.node pid (p ++ path) ≠ none) :
    Clears {l | l ∈ spared s.block table path} s.memoryMap
        (decreaseFrom s table path).1.memoryMap ∧
      (decreaseFrom s table path).2 = barren s.block table path ∧
      ∀ q ∈ lowPaths 3, ∀ x, s.node pid q = some x → ¬ p <+: q →
        (decreaseFrom s table path).1.block x = s.block x := by
  induction path generalizing p table with
  | nil => exact ⟨(Clears.refl _).congr (by simp [spared]), rfl, fun _ _ _ _ _ => rfl⟩
  | cons i path ih =>
    obtain ⟨hp3, hpi⟩ := mem_lowPaths_of_append hp
    obtain ⟨hline, hchild⟩ := line_of_node ht hmapped
    have hassoc : p ++ [i] ++ path = p ++ i :: path := by simp
    obtain ⟨hclears, hflag, hframe⟩ := ih (hassoc ▸ hp) hchild (hassoc ▸ hmapped)
    -- the recursive call does not reach the table itself
    have hself := hframe p hp3 table ht fun h => by simpa using h.length_le
    have hframe' : ∀ q ∈ lowPaths 3, ∀ x, s.node pid q = some x → ¬ p <+: q →
        (decreaseFrom s (pageLineToBlock (s.block table i)) path).1.block x = s.block x :=
      fun q hq x hx hpre => hframe q hq x hx fun h => hpre ((prefix_append p [i]).trans h)
    simp only [decreaseFrom, dropBehind, spared, barren, if_neg hline]
    rw [← hflag]
    generalize decreaseFrom s (pageLineToBlock (s.block table i)) path = r at *
    cases hr : r.2 with
    | false =>
      refine ⟨?_, ?_, ?_⟩
      · simpa using hclears
      · simp [hline]
      · exact hframe'
    | true =>
      refine ⟨?_, ?_, ?_⟩
      · refine (hclears.trans (Clears.set_false _ (r.1.block table i))).congr ?_
        intro x
        rw [hself]
        simp
      · have hrow : ∀ j, (r.1.dropLine table i).block table j =
            if j = i then 0 else s.block table j := by
          intro j
          split_ifs with hji
          · rw [hji]
            exact setEntry_self
          · rw [← hself]
            exact setEntry_of_ne (.inr hji)
        simp [blockEmpty, hrow]
      · intro q hq x hx hpre
        funext j
        rw [← hframe' q hq x hx hpre]
        exact setEntry_of_ne (.inl (ne_of_not_below hok hp3 ht hq hx hpre))

/-- The blocks that an increase takes: the first free ones, one for each missing line. -/
def takenFrom (boot : Boot) (s : Machine) (table : ℕ) (path : List (Fin 512)) : List ℕ :=
  (boot.freeBlocks s.memoryMap).take (missing s.block table path)

section Rows

variable {block block' : ℕ → Fin 512 → ℕ}

theorem barren_cons : barren block table (i :: path) =
    (decide (∀ j, j ≠ i → block table j = 0) &&
      (decide (block table i = 0) || barren block (pageLineToBlock (block table i)) path)) := rfl

theorem missing_of_zero (h : block table i = 0) :
    missing block table (i :: path) = path.length + 1 := if_pos h

theorem spared_of_zero (h : block table i = 0) : spared block table (i :: path) = [] :=
  if_pos h

theorem mem_spared_of_ne (h : block table i ≠ 0) {l : ℕ} :
    l ∈ spared block table (i :: path) ↔
      barren block (pageLineToBlock (block table i)) path = true ∧ l = block table i ∨
        l ∈ spared block (pageLineToBlock (block table i)) path := by
  change l ∈ (if block table i = 0 then [] else _) ↔ _
  rw [if_neg h, mem_append]
  split_ifs with hbarren <;> simp [hbarren]

theorem spared_of_new (path : List (Fin 512)) (bs : List ℕ) (hb : b < 2 ^ 40)
    (hzero : block table i = 0) (hrow : block' table = update (block table) i (b * 4096 + 7))
    (hbarren : barren block' b path = true)
    (hspared : ∀ l, l ∈ spared block' b path ↔ ∃ c ∈ bs, l = c * 4096 + 7) :
    barren block' table (i :: path) = barren block table (i :: path) ∧
      ∀ l, l ∈ spared block' table (i :: path) ↔ l ∈ spared block table (i :: path) ∨
        ∃ c ∈ b :: bs, l = c * 4096 + 7 := by
  have hline : block' table i = b * 4096 + 7 := by rw [hrow, update_self]
  have hchild : pageLineToBlock (block' table i) = b := by
    rw [hline, pageLineToBlock_line hb]
  have hother : ∀ j, j ≠ i → block' table j = block table j := by
    intro j hj
    rw [hrow, update_of_ne hj]
  constructor
  · rw [barren_cons, barren_cons, hchild, hbarren, hzero]
    simp +contextual [hother]
  · intro l
    rw [mem_spared_of_ne (by omega), spared_of_zero hzero, hchild, hspared l, hline]
    simp [hbarren]

end Rows

theorem takenFrom_of_ne (h : s.block table i ≠ 0) :
    takenFrom boot s table (i :: path) =
      takenFrom boot s (pageLineToBlock (s.block table i)) path := by
  unfold takenFrom
  congr 1
  exact if_neg h

theorem takenFrom_of_zero {map : MemoryMap} (h : s.block table i = 0)
    (hget : getAFreeBlock boot s.memoryMap = some (b, map)) :
    takenFrom boot s table (i :: path) = b :: (boot.freeBlocks map).take path.length := by
  rw [takenFrom, missing_of_zero h, freeBlocks_eq_cons hget, take_succ_cons]

/-- What is written for a line for which a block is taken. -/
theorem Passes.taken {inner : Prop} (h : Passes boot s table i inner b s')
    (hzero : s.block table i = 0) (hfresh : TakesUnused pid s s') (ht : s.Uses pid table) :
    b < 2 ^ 40 ∧ getAFreeBlock boot s.memoryMap = some (b, s'.memoryMap) ∧
      s'.block table = update (s.block table) i (b * 4096 + 7) ∧
      (∀ x, s.Uses pid x → x ≠ table → s'.block x = s.block x) ∧
      (inner → ∀ j, s'.block b j = 0) := by
  cases h with
  | old hne => exact absurd hzero hne
  | new _ hb hget _ hblock herased =>
    obtain ⟨-, hfree, hmap⟩ := getAFreeBlock_eq_some hget
    have hne : ∀ x, s.Uses pid x → x ≠ b := by
      rintro x hx rfl
      exact hfresh x ⟨hfree, by simp [Machine.setLine, hmap]⟩ hx
    refine ⟨hb, hget, ?_, ?_, ?_⟩
    · rw [← hblock table (hne table ht)]
      exact update_self ..
    · intro x hx hxt
      rw [← hblock x (hne x hx)]
      exact funext fun j => setEntry_of_ne (.inl hxt)
    · intro hinner j
      exact (setEntry_of_ne (.inl (hne table ht).symm)).trans (herased hinner j)

theorem Machine.Takes.eq {x : ℕ} (h : Takes s s' x)
    (hmap : s'.memoryMap = setMemoryBlockUsedWhenBoot s.memoryMap b true) : x = b := by
  by_contra hne
  exact h.2 (by rw [hmap, setMemoryBlockUsedWhenBoot_ne true hne, h.1])

theorem Passes.takesUnused {inner : Prop} (h : Passes boot s table i inner b s')
    (hfresh : s.block table i = 0 → ¬ s.Uses pid b) : TakesUnused pid s s' := by
  cases h with
  | old _ => exact fun x hx => absurd hx.1 hx.2
  | new hzero _ hget =>
    intro x hx
    rw [hx.eq (getAFreeBlock_eq_some hget).2.2]
    exact hfresh hzero

/-- An increase takes no other blocks than the first free ones, if the tree does not use them. -/
theorem Descends.takesUnused (h : Descends boot phys s' s table path) (hok : s.TreeOk pid)
    (hp : p ++ path ∈ lowPaths 4) (ht : s.node pid p = some table)
    (hfresh : ∀ x ∈ takenFrom boot s table path, ¬ s.Uses pid x) : TakesUnused pid s s' := by
  induction h generalizing p with
  | frame hpass _ =>
    refine hpass.takesUnused fun hzero => hfresh _ ?_
    cases hpass with
    | old hne => exact absurd hzero hne
    | new _ _ hget =>
      rw [takenFrom_of_zero hzero hget]
      exact mem_cons_self
  | @table s s1 table t i j path hpass hrest ih =>
    obtain ⟨hp3, -⟩ := mem_lowPaths_of_append hp
    have hassoc : p ++ [i] ++ j :: path = p ++ i :: j :: path := by simp
    by_cases hzero : s.block table i = 0
    · have htable : s.Uses pid table := ⟨p, lowPaths_mono (by decide) hp3, ht⟩
      have hget : getAFreeBlock boot s.memoryMap = some (t, s1.memoryMap) := by
        cases hpass with
        | old hne => exact absurd hzero hne
        | new _ _ hget => exact hget
      rw [takenFrom_of_zero hzero hget] at hfresh
      have hfresh1 := hpass.takesUnused fun _ => hfresh t mem_cons_self
      obtain ⟨hok1, hedit, hgrows, -⟩ := hpass.spec hok hp3 ht (fun _ => trivial) hfresh1
      obtain ⟨-, -, -, -, hempty⟩ := hpass.taken hzero hfresh1 htable
      -- the blocks of the rest are free behind the first one
      have hrest' : ∀ x ∈ takenFrom boot s1 t (j :: path), ¬ s1.Uses pid x := by
        rw [takenFrom, missing_of_zero (hempty trivial j), ← length_cons]
        intro x hx huses
        have hfree : s1.memoryMap x = 0 := by simpa using (mem_filter.mp (mem_of_mem_take hx)).2
        rcases hgrows.uses x huses with hold | htake
        · exact hfresh x (mem_cons_of_mem _ hx) hold
        · exact htake.2 hfree
      have hunused := ih hok1 (hassoc ▸ hp) hedit.self hrest'
      intro x hx hold
      by_cases hx1 : s1.memoryMap x = 0
      · obtain ⟨q, hq, hq'⟩ := hold
        refine hunused x ⟨hx1, hx.2⟩ ⟨q, hq, (hedit.other q hq ?_).trans hq'⟩
        rintro rfl
        rw [node_snoc ht, next_eq_none.mpr hzero] at hq'
        cases hq'
      · exact hfresh1 x ⟨hx.1, hx1⟩ hold
    · cases hpass with
      | new hzero' => exact absurd hzero' hzero
      | old hne =>
        rw [takenFrom_of_ne hne] at hfresh
        exact ih hok (hassoc ▸ hp) ((node_snoc ht).trans (next_of_ne hne)) hfresh

/-- An increase of an unmapped page marks the first free blocks and adds their lines to those on
the path that lead to nothing else. -/
theorem Descends.marks (h : Descends boot phys s' s table path) (hok : s.TreeOk pid)
    (hp : p ++ path ∈ lowPaths 4) (ht : s.node pid p = some table)
    (hunmapped : s.node pid (p ++ path) = none) (hfresh : TakesUnused pid s s') :
    s'.memoryMap = markUsed s.memoryMap (takenFrom boot s table path) ∧
    barren s'.block table path = barren s.block table path ∧
    (∀ l, l ∈ spared s'.block table path ↔ l ∈ spared s.block table path ∨
      ∃ b ∈ takenFrom boot s table path, l = b * 4096 + 7) ∧
    ∀ q ∈ lowPaths 3, ∀ x, s.node pid q = some x → ¬ p <+: q → s'.block x = s.block x := by
  induction h generalizing p with
  | @frame s table b i hpass _ =>
    obtain ⟨hp3, -⟩ := mem_lowPaths_of_append hp
    have htable : s.Uses pid table := ⟨p, lowPaths_mono (by decide) hp3, ht⟩
    have hzero := next_eq_none.mp ((node_snoc ht).symm.trans hunmapped)
    obtain ⟨hb, hget, hrow, hother, -⟩ := hpass.taken hzero hfresh htable
    rw [takenFrom_of_zero hzero hget]
    have hnew := spared_of_new [] [] hb hzero hrow rfl (by simp [spared])
    refine ⟨(getAFreeBlock_eq_some hget).2.2, hnew.1, hnew.2, fun q hq x hx hpre => ?_⟩
    exact hother x ⟨q, lowPaths_mono (by decide) hq, hx⟩ (ne_of_not_below hok hp3 ht hq hx hpre)
  | @table s s1 table t i j path hpass hrest ih =>
    obtain ⟨hp3, -⟩ := mem_lowPaths_of_append hp
    have htable : s.Uses pid table := ⟨p, lowPaths_mono (by decide) hp3, ht⟩
    have hfresh1 := hfresh.left hrest.keepsMarks
    obtain ⟨hok1, hedit, hgrows, -⟩ := hpass.spec hok hp3 ht (fun _ => trivial) hfresh1
    have hassoc : p ++ [i] ++ j :: path = p ++ i :: j :: path := by simp
    have hunmapped1 : s1.node pid (p ++ [i] ++ j :: path) = none := by
      rw [hassoc, hedit.other _ hp (by simp), hunmapped]
    obtain ⟨hmap, hbarren, hspared, hframe⟩ := ih hok1 (hassoc ▸ hp) hedit.self hunmapped1
      (hgrows.takesUnused hfresh)
    -- the rest of the call does not reach the table
    have ht1 : s1.node pid p = some table :=
      (hedit.other p (lowPaths_mono (by decide) hp3) (by simp)).trans ht
    have hself : s'.block table = s1.block table :=
      hframe p hp3 table ht1 fun h => by simpa using h.length_le
    have hframe' : ∀ q ∈ lowPaths 3, ∀ x, s1.node pid q = some x → ¬ p <+: q →
        s'.block x = s1.block x := fun q hq x hx hpre =>
      hframe q hq x hx fun h => hpre ((prefix_append p [i]).trans h)
    by_cases hzero : s.block table i = 0
    · -- the new table is empty, and of the old ones only the line of this step has changed
      obtain ⟨hb, hget, hrow, hother, hempty⟩ := hpass.taken hzero hfresh1 htable
      replace hempty := hempty trivial
      have hrest : takenFrom boot s1 t (j :: path) =
          (boot.freeBlocks s1.memoryMap).take (j :: path).length := by
        rw [takenFrom, missing_of_zero (hempty j), length_cons]
      rw [takenFrom_of_zero hzero hget, ← hrest]
      have hnew := spared_of_new (j :: path) (takenFrom boot s1 t (j :: path)) hb hzero
        (hself.trans hrow) ?_ ?_
      · refine ⟨by rw [hmap, (getAFreeBlock_eq_some hget).2.2]; rfl, hnew.1, hnew.2, ?_⟩
        intro q hq x hx hpre
        have hqL := lowPaths_mono (show 3 ≤ 4 by decide) hq
        have hx1 : s1.node pid q = some x := by
          refine (hedit.other q hqL ?_).trans hx
          rintro rfl
          exact hpre (prefix_append p [i])
        rw [hframe' q hq x hx1 hpre,
          hother x ⟨q, hqL, hx⟩ (ne_of_not_below hok hp3 ht hq hx hpre)]
      · rw [hbarren, barren_cons]
        simp [hempty]
      · intro l
        rw [hspared l, spared_of_zero (hempty j)]
        simp
    · cases hpass with
      | new hzero' => exact absurd hzero' hzero
      | old hne =>
        rw [takenFrom_of_ne hne]
        refine ⟨hmap, ?_, ?_, hframe'⟩
        · rw [barren_cons, hself, hbarren, ← barren_cons]
        · intro l
          have hne' : s'.block table i ≠ 0 := by rwa [hself]
          rw [mem_spared_of_ne hne', mem_spared_of_ne hne, hself, hbarren, hspared l, or_assoc]

/-! ## When the blocks come back -/

def Machine.taken (boot : Boot) (s : Machine) (pid v : ℕ) : List ℕ :=
  takenFrom boot s (s.processesCr3 pid) (pagePath v)

/-- The entries that the decrease after it clears: those at the values of the new lines, and those
at the values of the lines of tables that were empty before. -/
def Machine.returned (boot : Boot) (s : Machine) (pid v : ℕ) : List ℕ :=
  spared s.block (s.processesCr3 pid) (pagePath v) ++
    (s.taken boot pid v).map fun b => b * 4096 + 7

/-- An increase for an unmapped page and its decrease restore the map exactly when every block taken
has the value of a dropped line as its index, and no dropped line has the index of a block in use as
its value. -/
theorem restores_iff (hboot : boot.totalMemoryBlocksCount ≤ 2 ^ 40) {v : ℕ}
    (h : increasePagingOfProcessWithVirtAddr boot junk s pid v = some (phys, s'))
    (hok : s.TreeOk pid) (hv : v < HM) (hunmapped : isPaged s pid v = false)
    (hfresh : ∀ b ∈ s.taken boot pid v, ¬ s.Uses pid b) :
    (decreasePagingOfProcessWithVirtAddr s' pid v).memoryMap = s.memoryMap ↔
      (∀ b ∈ s.taken boot pid v, b ∈ s.returned boot pid v) ∧
        ∀ l ∈ s.returned boot pid v, s.memoryMap l = 0 := by
  have hpath := pagePath_mem hv
  have hdown := increaseFrom_descends hboot ((increasePaging_eq ..).symm.trans h)
  replace hfresh := hdown.takesUnused (p := []) hok hpath rfl hfresh
  obtain ⟨hok', hgrows, -, b, hb, -⟩ := increasePaging_spec hboot h hok hv hfresh
  have hnone : s.node pid ([] ++ pagePath v) = none := by
    change s.frame pid v = none
    simpa [isPaged_eq] using hunmapped
  obtain ⟨hmap, -, hspared, -⟩ := hdown.marks (p := []) hok hpath rfl hnone hfresh
  change s'.memoryMap = markUsed s.memoryMap (s.taken boot pid v) at hmap
  have hcr3 : s'.processesCr3 pid = s.processesCr3 pid := congrFun hgrows.cr3 pid
  have hmapped : s'.node pid ([] ++ pagePath v) ≠ none := by
    change s'.frame pid v ≠ none
    rw [hb]
    simp
  have hclears : Clears {l | l ∈ spared s'.block (s'.processesCr3 pid) (pagePath v)} s'.memoryMap
      (decreasePagingOfProcessWithVirtAddr s' pid v).memoryMap := by
    rw [decreasePaging_eq]
    exact (decreaseFrom_clears (p := []) hok' hpath rfl hmapped).1
  have hreturned : ∀ l, l ∈ spared s'.block (s'.processesCr3 pid) (pagePath v) ↔
      l ∈ s.returned boot pid v := by
    intro l
    rw [hcr3, hspared l, Machine.returned, mem_append, mem_map]
    simp only [Machine.taken, eq_comm]
  replace hclears := hclears.congr (T := {l | l ∈ s.returned boot pid v}) hreturned
  have hfree : ∀ b ∈ s.taken boot pid v, s.memoryMap b = 0 := by
    intro b hb
    simpa using (mem_filter.mp (mem_of_mem_take hb)).2
  constructor
  · intro hrestored
    rw [hrestored] at hclears
    refine ⟨?_, hclears.cleared⟩
    intro b hb
    by_contra hnot
    -- the block is still marked
    have hmarked := hclears.kept b hnot
    rw [hmap, markUsed_apply, if_pos hb, hfree b hb] at hmarked
    cases hmarked
  · rintro ⟨htaken, hclear⟩
    funext x
    by_cases hx : x ∈ s.returned boot pid v
    · rw [hclears.cleared x hx, hclear x hx]
    · rw [hclears.kept x hx, hmap, markUsed_apply, if_neg fun h => hx (htaken x h)]

/-- **Physical blocks are given back by accident only**: an increase and its decrease restore the
map exactly when the blocks taken have the values of dropped lines as indices and no dropped line
has the index of a block in use as its value, and `free_page_hm` clears the entries of the low half
exactly if the entries are clear in which its blocks differ from those `2 ^ 34` behind them. -/
theorem blocks_conserved_iff {boot : Boot} {s : Machine} {pid : ℕ}
    (hboot : boot.totalMemoryBlocksCount ≤ 2 ^ 40) (hok : s.TreeOk pid)
    (hzero : ¬ s.Uses pid 0) :
    (∀ v < HM, v % 4096 = 0 → isPaged s pid v = false →
      (∀ b ∈ s.taken boot pid v, ¬ s.Uses pid b) → ∀ junk phys s',
      increasePagingOfProcessWithVirtAddr boot junk s pid v = some (phys, s') →
      ((decreasePagingOfProcessWithVirtAddr s' pid v).memoryMap = s.memoryMap ↔
        (∀ b ∈ s.taken boot pid v, b ∈ s.returned boot pid v) ∧
          ∀ l ∈ s.returned boot pid v, s.memoryMap l = 0)) ∧
    (Clears {b | s.Uses pid b} s.memoryMap
        (freePageHm s.block 4 s.memoryMap (s.processesCr3 pid * 4096 + HM)) ↔
      ∀ x, Xor (x ∈ shifted {b | s.Uses pid b}) (x ∈ {b | s.Uses pid b}) → s.memoryMap x = 0) := by
  constructor
  · intro v hv _ hunmapped hfresh junk phys s' h
    exact restores_iff hboot h hok hv hunmapped hfresh
  · exact (freePageHm_clears hzero s.memoryMap).iff_clears

theorem smallMachine_taken :
    ∀ b ∈ smallMachine.taken smallBoot 1 0x1000, ¬ smallMachine.Uses 1 b := by
  intro b hb huses
  rw [eq_cr3_of_uses smallMachine_empty huses] at hb
  exact absurd hb (by decide)

/-- Three tables and a frame are taken at blocks 3 to 6. The decrease clears entries past the end of
the map and leaves the four marked. -/
theorem blocks_not_conserved :
    isPaged smallMachine 1 0x1000 = false ∧ smallMachine.Uses 1 2 ∧
    (∃ phys s', increasePagingOfProcessWithVirtAddr smallBoot 0 smallMachine 1 0x1000 =
        some (phys, s') ∧ (∀ b ∈ smallMachine.taken smallBoot 1 0x1000, ¬ smallMachine.Uses 1 b) ∧
      (decreasePagingOfProcessWithVirtAddr s' 1 0x1000).memoryMap ≠ smallMachine.memoryMap) ∧
    ¬ Clears {b | smallMachine.Uses 1 b} smallMachine.memoryMap
      (freePageHm smallMachine.block 4 smallMachine.memoryMap
        (smallMachine.processesCr3 1 * 4096 + HM)) := by
  have huses : smallMachine.Uses 1 2 := ⟨[], ⟨by decide, by simp⟩, rfl⟩
  refine ⟨by decide +kernel, huses, ?_, ?_⟩
  · obtain ⟨⟨phys, s'⟩, hs', hmap⟩ : ∃ r ∈ increasePagingOfProcessWithVirtAddr smallBoot 0
        smallMachine 1 0x1000,
        (decreasePagingOfProcessWithVirtAddr r.2 1 0x1000).memoryMap 3 = 1 := by
      decide +kernel
    refine ⟨phys, s', hs', smallMachine_taken, ?_⟩
    intro heq
    rw [heq] at hmap
    cases hmap
  · intro hclears
    exact absurd (hclears.cleared 2 huses) (by decide +kernel)

theorem blocks_conserved_iff_small :
    ∃ phys s', increasePagingOfProcessWithVirtAddr smallBoot 0 smallMachine 1 0x1000 =
        some (phys, s') ∧
      (decreasePagingOfProcessWithVirtAddr s' 1 0x1000).memoryMap ≠ smallMachine.memoryMap := by
  have hzero : ¬ smallMachine.Uses 1 0 := fun h =>
    absurd (eq_cr3_of_uses smallMachine_empty h) (by decide)
  obtain ⟨⟨phys, s'⟩, hs'⟩ : ∃ r, increasePagingOfProcessWithVirtAddr smallBoot 0 smallMachine 1
      0x1000 = some r := Option.isSome_iff_exists.mp (by decide)
  obtain ⟨hiff, -⟩ :=
    blocks_conserved_iff (show smallBoot.totalMemoryBlocksCount ≤ 2 ^ 40 by decide)
    (treeOk_of_empty smallMachine_empty) hzero
  refine ⟨phys, s', hs', ?_⟩
  rw [Ne, hiff 0x1000 (by decide) rfl (by decide) smallMachine_taken 0 phys s' hs']
  decide

end CarrotOS
