import CarrotOS.Elf.Load
import CarrotOS.Sched.Tables

/-!
# What is loaded, and where

A segment of a program is loaded completely unless `read_file` refuses to read it: for a segment
without bytes in the file, and for one at address 0, it returns an error, and nothing is erased
either.

The segments of `/ld.so` are placed from the sum of the sizes of the segments of the program on,
wherever these are.
-/

namespace CarrotOS.Elf

open Bytes Word List

variable {r : Reader} {e : PhtEntry} {startOffset : ℕ}

/-! ## The bytes of a segment -/

/-- The memory after `load_pht_to_memory`. -/
def loadedBytes (r : Reader) (e : PhtEntry) (startOffset : ℕ) (mem : ℕ → UInt8) : ℕ → UInt8 :=
  let virtualMemOffset := e.vaddr startOffset
  let phtSizeInFile := e.pFilesz.toNat
  let phtSizeInMem := e.pMemsz.toNat
  if e.pType ≠ ptLoad ∨ phtSizeInFile > phtSizeInMem then mem
  else
    match r.readFile virtualMemOffset e.pOffset.toNat phtSizeInFile with
    | none => mem
    | some bytes =>
      let mem := blit mem virtualMemOffset bytes.length fun j => bytes.getD j 0
      if phtSizeInMem > phtSizeInFile then
        blit mem (u64 (virtualMemOffset + phtSizeInFile)) (phtSizeInMem - phtSizeInFile) fun _ => 0
      else mem

/-- The segment has its size as the result, its pages, its bytes of the file, and zeros behind
them. -/
structure Complete (r : Reader) (e : PhtEntry) (startOffset : ℕ) (mem : ℕ → UInt8) : Prop where
  result : (loadPhtToMemory r e startOffset).result = some e.pMemsz.toNat
  pages : ∀ page, page % 4096 = 0 → page < e.vaddr startOffset + e.pMemsz.toNat →
    e.vaddr startOffset < page + 4096 → page ∈ (loadPhtToMemory r e startOffset).pages
  bytes : ∀ j < e.pFilesz.toNat, loadedBytes r e startOffset mem (e.vaddr startOffset + j) =
    (r.read e.pOffset.toNat e.pFilesz.toNat).getD j 0
  zeros : ∀ j < e.pMemsz.toNat, e.pFilesz.toNat ≤ j →
    loadedBytes r e startOffset mem (e.vaddr startOffset + j) = 0

theorem mem_extendCr3 {vaddr memsz page : ℕ} (hbelow : vaddr + memsz ≤ HM)
    (hpage : page % 4096 = 0) (hlt : page < vaddr + memsz) (hgt : vaddr < page + 4096) :
    page ∈ (extendCr3 vaddr memsz).1 := by
  unfold HM at hbelow
  have hk : vaddr / 4096 * 4096 + 4096 * (page / 4096 - vaddr / 4096) = page := by omega
  have hmem := mem_extendCr3Loop (show vaddr + memsz < 2 ^ 64 by omega)
    (show page / 4096 - vaddr / 4096 < 2 ^ 52 by omega) (hk.trans_le hlt.le)
  rw [hk, mappedPage_of_mod hpage, Nat.mod_eq_of_lt (by omega)] at hmem
  rw [extendCr3, u64_of_lt (by omega)]
  exact hmem

/-- The bytes that change are those of the ranges that the segment writes. -/
theorem loadedBytes_of_not_written {x : ℕ} (mem : ℕ → UInt8)
    (hends : (loadPhtToMemory r e startOffset).result ≠ none)
    (h : ∀ w ∈ (loadPhtToMemory r e startOffset).writes, x < w.1 ∨ w.1 + w.2 ≤ x) :
    loadedBytes r e startOffset mem x = mem x := by
  rw [loadedBytes]
  by_cases hskip : e.pType ≠ ptLoad ∨ e.pFilesz.toNat > e.pMemsz.toNat
  · rw [if_pos hskip]
  obtain ⟨hload, hle⟩ := not_or.mp hskip
  rw [loadPhtToMemory, if_neg hload] at h hends
  rw [if_neg hskip]
  dsimp only at h hends ⊢
  split at hends
  · exact absurd rfl hends
  rename_i hloop
  rw [if_neg hloop, if_neg hle] at h
  cases hread : r.readFile (e.vaddr startOffset) e.pOffset.toNat e.pFilesz.toNat with
  | none => rfl
  | some bytes =>
    rw [hread] at h
    dsimp only at h ⊢
    have hbytes := h _ mem_cons_self
    split_ifs at h ⊢ with hzeros
    · have hrest := h _ (mem_cons_of_mem _ mem_cons_self)
      rw [blit_of_not_mem _ _ hrest, blit_of_not_mem _ _ hbytes]
    · rw [blit_of_not_mem _ _ hbytes]

theorem loadedBytes_of_not_refused (mem : ℕ → UInt8) (hload : e.pType = ptLoad)
    (hrefused : ¬e.Refused r startOffset) (hbelow : e.vaddr startOffset + e.pMemsz.toNat ≤ HM)
    (hexist : (r.read e.pOffset.toNat e.pFilesz.toNat).length = e.pFilesz.toNat) (j : ℕ) :
    loadedBytes r e startOffset mem (e.vaddr startOffset + j) =
      if j < e.pFilesz.toNat then (r.read e.pOffset.toNat e.pFilesz.toNat).getD j 0
      else if j < e.pMemsz.toNat then 0 else mem (e.vaddr startOffset + j) := by
  have hle : ¬e.pFilesz.toNat > e.pMemsz.toNat :=
    fun hgt => hrefused (.inl (UInt64.lt_iff_toNat_lt.mpr hgt))
  unfold HM at hbelow
  rw [loadedBytes, if_neg (by simp [hload, hle]), readFile_of_not_refused hrefused]
  dsimp only
  rw [hexist, u64_of_lt (by omega)]
  by_cases hfile : j < e.pFilesz.toNat
  · rw [if_pos hfile]
    split_ifs with hzeros
    · rw [blit_of_not_mem _ _ (by omega), blit_of_mem _ _ (by omega) (by omega),
        Nat.add_sub_cancel_left]
    · rw [blit_of_mem _ _ (by omega) (by omega), Nat.add_sub_cancel_left]
  · rw [if_neg hfile]
    split_ifs with hzeros hmem hmem
    · exact blit_of_mem _ _ (by omega) (by omega)
    · rw [blit_of_not_mem _ _ (by omega), blit_of_not_mem _ _ (by omega)]
    · omega
    · exact blit_of_not_mem _ _ (by omega)

/-- **When a segment is loaded completely**: it has bytes in the file, and its address is not 0. -/
theorem complete_iff (hload : e.pType = ptLoad) (hsizes : e.pFilesz ≤ e.pMemsz)
    (hbelow : e.pVaddr.toNat + startOffset + e.pMemsz.toNat ≤ HM) (hmounted : r.mounted = true)
    (hexist : (r.read e.pOffset.toNat e.pFilesz.toNat).length = e.pFilesz.toNat)
    (mem : ℕ → UInt8) :
    Complete r e startOffset mem ↔ e.pFilesz ≠ 0 ∧ e.pVaddr.toNat + startOffset ≠ 0 := by
  have hvaddr : e.vaddr startOffset = e.pVaddr.toNat + startOffset :=
    u64_of_lt (by unfold HM at hbelow; omega)
  have hle : e.pFilesz.toNat ≤ e.pMemsz.toNat := UInt64.le_iff_toNat_le.mp hsizes
  rw [← hvaddr] at hbelow ⊢
  have hends : (extendCr3 (e.vaddr startOffset) e.pMemsz.toNat).2 = true := by
    unfold HM at hbelow
    rw [extendCr3, u64_of_lt (by omega)]
    exact extendCr3Loop_ends (show _ < 2 ^ 64 - 4096 by omega) (by omega)
  by_cases hrefused : e.Refused r startOffset
  · refine iff_of_false (fun h => ?_) ?_
    · obtain ⟨code, hcode, heq⟩ := loadPht_of_refused hload hends hrefused
      have hresult := h.result
      rw [heq] at hresult
      cases hresult
      unfold errOne errTwo HM at *
      omega
    · rintro ⟨hfilesz, haddr⟩
      rcases hrefused with hgt | h0 | h0 | h0
      · exact absurd (UInt64.lt_iff_toNat_lt.mp hgt) (Nat.not_lt.mpr hle)
      · exact hfilesz h0
      · exact haddr h0
      · simp [h0] at hmounted
  · have heq := loadPht_of_not_refused hload hends hrefused
    have hbytes := loadedBytes_of_not_refused mem hload hrefused hbelow hexist
    obtain ⟨-, hfilesz, haddr, -⟩ : ¬e.pFilesz > e.pMemsz ∧ e.pFilesz ≠ 0 ∧
        e.vaddr startOffset ≠ 0 ∧ ¬r.mounted = false := by
      simpa only [PhtEntry.Refused, not_or] using hrefused
    refine iff_of_true
      ⟨by rw [heq], fun page hpage hlt hgt => ?_, fun j hj => ?_, fun j hj hj' => ?_⟩
      ⟨hfilesz, haddr⟩
    · rw [heq]
      exact mem_extendCr3 hbelow hpage hlt hgt
    · exact (hbytes j).trans (if_pos hj)
    · exact (hbytes j).trans ((if_neg (Nat.not_lt.mpr hj')).trans (if_pos hj))

/-- A segment of three bytes with two of them in the file. -/
theorem complete_three : Complete (.ofBytes [7, 8]) ⟨ptLoad, 0, 4096, 2, 3⟩ 0 fun _ => 1 :=
  (complete_iff rfl (by decide) (by decide) rfl (by decide) _).mpr ⟨by decide, by decide⟩

/-- **A segment without bytes in the file is not loaded.** -/
theorem bss_not_complete :
    (loadPhtToMemory (.ofBytes [7, 8]) ⟨ptLoad, 0, 4096, 0, 3⟩ 0).result = some errTwo ∧
    ¬Complete (.ofBytes [7, 8]) ⟨ptLoad, 0, 4096, 0, 3⟩ 0 fun _ => 1 := by
  have hresult : (loadPhtToMemory (.ofBytes [7, 8]) ⟨ptLoad, 0, 4096, 0, 3⟩ 0).result =
      some errTwo := by decide
  refine ⟨hresult, fun h => ?_⟩
  cases hresult.symm.trans h.result

/-! ## The place of the interpreter -/

/-- The segment, loaded with the given offset, has the address. -/
def PhtEntry.Covers (e : PhtEntry) (startOffset a : ℕ) : Prop :=
  e.pType = ptLoad ∧ ∃ j < e.pMemsz.toNat, a = u64 (e.vaddr startOffset + j)

/-- `heap_start_addr`: the largest end of a segment, rounded up. -/
def heapStart (entries : List PhtEntry) : ℕ :=
  ldStart (entries.foldl (fun heapStart e =>
    let segEnd := u64 (e.pVaddr.toNat + e.pMemsz.toNat)
    if e.pType = ptLoad ∧ segEnd > heapStart then segEnd else heapStart) 0)

/-- No segment of the interpreter has an address of the heap or of a segment of the program. -/
def LdApart (entries soEntries : List PhtEntry) (start : ℕ) : Prop :=
  ∀ e ∈ soEntries, ∀ a, e.Covers start a → a < heapStart entries ∧ ∀ e' ∈ entries, ¬e'.Covers 0 a

theorem result_of_loaded {count : ℕ} (h : (loadPhtToMemory r e startOffset).result = some count)
    (hok : ¬(count = errOne ∨ count = errTwo)) :
    count = if e.pType = ptLoad then e.pMemsz.toNat else 0 := by
  rw [loadPhtToMemory] at h
  by_cases hload : e.pType = ptLoad
  · rw [if_neg (not_not.mpr hload)] at h
    rw [if_pos hload]
    dsimp only at h
    split at h
    · cases h
    split at h
    · cases h
      exact absurd (.inl rfl) hok
    split at h
    · cases h
      exact absurd (.inr rfl) hok
    · exact (Option.some.inj h).symm
  · rw [if_pos hload] at h
    cases h
    rw [if_neg hload]

theorem last_of_loaded {entries : List PhtEntry} {start last : ℕ}
    (h : (loadEntries r entries start).2 = .loaded last) : last = lastMemory entries start := by
  induction entries generalizing start with
  | nil =>
    cases h
    rfl
  | cons e entries ih =>
    rw [loadEntries] at h
    split at h
    · cases h
    · rename_i count hcount
      split_ifs at h with herror
      rw [ih h, result_of_loaded hcount herror]
      rfl

section Covers

variable {e' : PhtEntry} {start h : ℕ} {entries soEntries : List PhtEntry}

theorem covers_iff {a : ℕ} (hload : e.pType = ptLoad)
    (hend : e.vaddr start + e.pMemsz.toNat ≤ 2 ^ 64) :
    e.Covers start a ↔ e.vaddr start ≤ a ∧ a < e.vaddr start + e.pMemsz.toNat := by
  constructor
  · rintro ⟨-, j, hj, rfl⟩
    rw [u64_of_lt (by omega)]
    omega
  · rintro ⟨hle, hlt⟩
    refine ⟨hload, a - e.vaddr start, by omega, ?_⟩
    rw [u64_of_lt (by omega)]
    omega

theorem lt_of_covers_iff (hh : h < 2 ^ 64 - 1) (hload : e.pType = ptLoad)
    (hsize : e.pMemsz.toNat ≠ 0) :
    (∀ a, e.Covers start a → a < h) ↔ e.vaddr start + e.pMemsz.toNat ≤ h := by
  have hv := vaddr_lt e start
  by_cases hround : e.vaddr start + e.pMemsz.toNat ≤ 2 ^ 64
  · simp only [covers_iff hload hround]
    refine ⟨fun hall => ?_, fun hle a ha => by omega⟩
    have hlast := hall (e.vaddr start + e.pMemsz.toNat - 1)
    omega
  · -- a segment that goes round has the largest address
    refine iff_of_false (fun hall => ?_) (by omega)
    have hlast := hall _ ⟨hload, 2 ^ 64 - 1 - e.vaddr start, by omega, rfl⟩
    rw [u64_of_lt (by omega)] at hlast
    omega

theorem apart_iff (hload : e.pType = ptLoad) (hsize : e.pMemsz.toNat ≠ 0)
    (hend : e.vaddr start + e.pMemsz.toNat ≤ 2 ^ 64) (hfits : e'.Fits) :
    (∀ a, e.Covers start a → ¬e'.Covers 0 a) ↔
      (e'.pType = ptLoad → e'.pMemsz.toNat ≠ 0 →
        e.vaddr start + e.pMemsz.toNat ≤ e'.vaddr 0 ∨
          e'.vaddr 0 + e'.pMemsz.toNat ≤ e.vaddr start) := by
  by_cases hload' : e'.pType = ptLoad
  · have hend' : e'.vaddr 0 + e'.pMemsz.toNat ≤ 2 ^ 64 := by
      have hfits := hfits hload'
      unfold HM at hfits
      rw [PhtEntry.vaddr, u64_of_lt (by omega)]
      omega
    simp only [covers_iff hload hend, covers_iff hload' hend', hload', true_imp_iff]
    constructor
    · intro hall hsize'
      have hfirst := hall (e.vaddr start)
      have hfirst' := hall (e'.vaddr 0)
      omega
    · intro hcases a ha
      omega
  · simp [PhtEntry.Covers, hload']

theorem heapStart_lt (entries : List PhtEntry) : heapStart entries < 2 ^ 64 - 1 := by
  unfold heapStart ldStart u64
  omega

/-- **Where the interpreter is placed**, and when it is apart from the program and its heap. -/
theorem ldApart_iff {file ld : Reader} {junk ldJunk : ℕ → ℕ → UInt8} {eEntry soEntry : UInt64}
    {last : ℕ} (hfile : readHeaders file junk = .ok (entries, eEntry))
    (hinterp : hasInterp entries = true) (hld : readHeaders ld ldJunk = .ok (soEntries, soEntry))
    (hloaded : (loadEntries file entries 0).2 = .loaded last) (hfits : ∀ e ∈ entries, e.Fits) :
    (runElfProcess true file ld junk ldJunk).1 = (loadEntries file entries 0).1 ++
      (loadSoEntries ld (ldStart (lastMemory entries 0)) soEntries).1 ∧
    (LdApart entries soEntries (ldStart (lastMemory entries 0)) ↔
      ∀ e ∈ soEntries, e.pType = ptLoad → e.pMemsz.toNat ≠ 0 →
        e.vaddr (ldStart (lastMemory entries 0)) + e.pMemsz.toNat ≤ heapStart entries ∧
        ∀ e' ∈ entries, e'.pType = ptLoad → e'.pMemsz.toNat ≠ 0 →
          e.vaddr (ldStart (lastMemory entries 0)) + e.pMemsz.toNat ≤ e'.vaddr 0 ∨
            e'.vaddr 0 + e'.pMemsz.toNat ≤ e.vaddr (ldStart (lastMemory entries 0))) := by
  obtain rfl := last_of_loaded hloaded
  rw [runElfProcess_of_loaded hfile hloaded, if_pos hinterp, loadSo, hld]
  refine ⟨rfl, forall₂_congr fun e _ => ?_⟩
  generalize ldStart (lastMemory entries 0) = start
  by_cases hload : e.pType = ptLoad ∧ e.pMemsz.toNat ≠ 0
  · obtain ⟨hload, hsize⟩ := hload
    simp only [hload, true_imp_iff, hsize, ne_eq, not_false_eq_true]
    have hheap := heapStart_lt entries
    have hlt : (∀ a, e.Covers start a → a < heapStart entries) ↔ _ :=
      lt_of_covers_iff hheap hload hsize
    constructor
    · intro hall
      have hle := hlt.mp fun a ha => (hall a ha).1
      exact ⟨hle, fun e' he' => (apart_iff hload hsize (by omega) (hfits e' he')).mp
        fun a ha => (hall a ha).2 e' he'⟩
    · rintro ⟨hle, hall⟩ a ha
      exact ⟨hlt.mpr hle a ha, fun e' he' =>
        (apart_iff hload hsize (by omega) (hfits e' he')).mpr (hall e' he') a ha⟩
  · -- such a header has no addresses
    refine iff_of_true (fun a ha => ?_) fun hl hs => absurd ⟨hl, hs⟩ hload
    obtain ⟨hl, j, hj, -⟩ := ha
    exact absurd ⟨hl, by omega⟩ hload

end Covers

def elfBytes (entries : List PhtEntry) : List UInt8 :=
  [0x7F, 0x45, 0x4C, 0x46] ++ replicate 28 0 ++ [64] ++ replicate 23 0 ++
    [.ofNat entries.length] ++ replicate 7 0 ++ entries.flatMap fun e =>
      (range 8).map (leByte e.pType.toNat) ++ (range 8).map (leByte e.pOffset.toNat) ++
        (range 8).map (leByte e.pVaddr.toNat) ++ replicate 8 0 ++
        (range 8).map (leByte e.pFilesz.toNat) ++ (range 8).map (leByte e.pMemsz.toNat) ++
        replicate 8 0

/-- A program with one page at the given address and an interpreter. -/
def onePage (vaddr : UInt64) : List PhtEntry :=
  [⟨ptLoad, 0, vaddr, 1, 4096⟩, ⟨ptInterp, 0, 0, 0, 0⟩]

def oneByte : List PhtEntry :=
  [⟨ptLoad, 0, 0, 1, 1⟩]

/-- A program at 0x400000. -/
theorem ldApart_high :
    readHeaders (.ofBytes (elfBytes (onePage 0x400000))) (fun _ _ => 0) =
      .ok (onePage 0x400000, 0) ∧
    readHeaders (.ofBytes (elfBytes oneByte)) (fun _ _ => 0) = .ok (oneByte, 0) ∧
    LdApart (onePage 0x400000) oneByte (ldStart (lastMemory (onePage 0x400000) 0)) := by
  have hfile : readHeaders (.ofBytes (elfBytes (onePage 0x400000))) (fun _ _ => 0) =
      .ok (onePage 0x400000, 0) := by decide +kernel
  have hld : readHeaders (.ofBytes (elfBytes oneByte)) (fun _ _ => 0) = .ok (oneByte, 0) := by
    decide
  have hloaded : (loadEntries (.ofBytes (elfBytes (onePage 0x400000))) (onePage 0x400000) 0).2 =
      .loaded 4096 := by decide
  exact ⟨hfile, hld, (ldApart_iff hfile (by decide) hld hloaded (by decide)).2.mpr (by decide)⟩

/-- **The interpreter is placed over a program** whose page is at 0x1000. -/
theorem interp_over_program :
    (runElfProcess true (.ofBytes (elfBytes (onePage 4096))) (.ofBytes (elfBytes oneByte))
      (fun _ _ => 0) fun _ _ => 0).1.map Segment.writes =
      [[(4096, 1), (4097, 4095)], [], [(4096, 1)]] ∧
    ¬LdApart (onePage 4096) oneByte (ldStart (lastMemory (onePage 4096) 0)) := by
  refine ⟨by decide +kernel, fun h => ?_⟩
  refine (h _ (mem_singleton.mpr rfl) 4096 ⟨rfl, 0, by decide, by decide⟩).2 _ mem_cons_self ?_
  exact ⟨rfl, 0, by decide, by decide⟩

/-! ## The process -/

/-- What the tables of processes and threads see of the load: a file that is refused before there is
a process, a file that cannot be loaded, or a program. A load that does not end is none of them. -/
def loading (allowed : Bool) (file ld : Reader) (junk ldJunk : ℕ → ℕ → UInt8) :
    Option Sched.Loading :=
  match (runElfProcess allowed file ld junk ldJunk).2 with
  | .loops => none
  | .loaded _ => some .loaded
  | .error code =>
    some (if allowed && (readHeaders file junk).isOk then .broken code else .refused code)

/-- **`run_elf_process` as a whole** returns the error of the load, or the process that it starts
after the program has been loaded. -/
theorem runElfProcess_returns {allowed : Bool} {file ld : Reader} {junk ldJunk : ℕ → ℕ → UInt8}
    {k k' : Sched.Kernel} {caller processAddr cr3 threadAddr code : ℕ} {isFork : Bool}
    (h : (loading allowed file ld junk ldJunk).bind
      (k.runElfProcess caller isFork processAddr cr3 threadAddr) = some (code, k')) :
    (runElfProcess allowed file ld junk ldJunk).2 = .error code ∨
      ∃ last pid k₁, (runElfProcess allowed file ld junk ldJunk).2 = .loaded last ∧
        k.prepareProcess caller isFork processAddr cr3 = some (pid, k₁) ∧
        k₁.startProcess pid threadAddr = some (code, k') := by
  obtain ⟨l, hl, hk⟩ := Option.bind_eq_some_iff.mp h
  rw [loading] at hl
  cases hload : (runElfProcess allowed file ld junk ldJunk).2 with
  | loops =>
    rw [hload] at hl
    cases hl
  | loaded last =>
    rw [hload] at hl
    cases hl
    obtain ⟨⟨pid, k₁⟩, hprepare, hstart⟩ := Option.bind_eq_some_iff.mp hk
    exact .inr ⟨last, pid, k₁, rfl, hprepare, hstart⟩
  | error r =>
    rw [hload] at hl
    left
    dsimp only at hl
    split_ifs at hl
    · cases hl
      obtain ⟨⟨pid, k₁⟩, -, hresult⟩ := Option.bind_eq_some_iff.mp hk
      cases hresult
      rfl
    · cases hl
      cases hk
      rfl

end CarrotOS.Elf
