import CarrotOS.Lib.Bytes
import CarrotOS.Mem.Blocks

/-!
# Loading the segments of a program

`run_elf_process` reads the program headers of a file and loads each `PT_LOAD` segment: `extend_cr3`
maps the pages from `p_vaddr` to `p_vaddr + p_memsz`, `read_file` copies the bytes of the file, and
the rest is erased. The addresses are added without a check, so a segment can lie in the half of the
kernel, or its end can go round to a small address. The segments of an interpreter, `/ld.so`, are
loaded behind it in the same way, and their errors are ignored.

Whether everything stays below `HM` is decided by the headers alone, apart from segments whose end
goes round and which therefore get no pages: for them the length of the file matters too.
-/

namespace CarrotOS.Elf

open Bytes Word List

/-! ## Files and headers -/

/-- `struct pht_entry_t`: the fields that the loader reads. -/
structure PhtEntry where
  pType : UInt32
  pOffset : UInt64
  pVaddr : UInt64
  pFilesz : UInt64
  pMemsz : UInt64
  deriving DecidableEq

/-- A path as `read_file` sees it: whether something is mounted there, and what the driver stores,
at most as many bytes as asked for. -/
structure Reader where
  mounted : Bool
  read : ℕ → ℕ → List UInt8
  length_le : ∀ offset count, (read offset count).length ≤ count

/-- `read_file`: the bytes stored from `buf` on, or none if it returns an error. -/
def Reader.readFile (r : Reader) (buf offset count : ℕ) : Option (List UInt8) :=
  if buf = 0 ∨ count = 0 ∨ r.mounted = false then none else some (r.read offset count)

/-- `read_file` into a local variable, whose result nobody looks at. -/
def Reader.fill (r : Reader) (buffer : ℕ → UInt8) (offset count : ℕ) : ℕ → UInt8 := fun j =>
  let bytes := (r.readFile 1 offset count).getD []
  if j < bytes.length then bytes.getD j 0 else buffer j

def isElf (buffer : ℕ → UInt8) : Bool :=
  buffer 0 = 0x7F && (buffer 1 = 0x45 && buffer 2 = 0x4C && buffer 3 = 0x46)

/-- The word of `k` bytes at an offset of a buffer. -/
def field (buffer : ℕ → UInt8) (k offset : ℕ) : ℕ :=
  leNat k fun i => buffer (offset + i)

def maxPhtPerElf : ℕ := 16

def ptLoad : UInt32 := 1

def ptInterp : UInt32 := 3

def phtEntry (buffer : ℕ → UInt8) (i : ℕ) : PhtEntry where
  pType := .ofNat (field buffer 4 (56 * i))
  pOffset := .ofNat (field buffer 8 (56 * i + 8))
  pVaddr := .ofNat (field buffer 8 (56 * i + 16))
  pFilesz := .ofNat (field buffer 8 (56 * i + 32))
  pMemsz := .ofNat (field buffer 8 (56 * i + 40))

/-- The errors of the loader, as words of 64 bits. -/
def errOne : ℕ := 2 ^ 64 - 1

@[inherit_doc errOne] def errTwo : ℕ := 2 ^ 64 - 2

/-- What `run_elf_process` and `load_so` have in common: the program headers and `e_entry`. `junk`
are the local buffers before they are filled. -/
def readHeaders (r : Reader) (junk : ℕ → ℕ → UInt8) : Except ℕ (List PhtEntry × UInt64) :=
  if isElf (r.fill (junk 0) 0 4) = false then .error errOne
  else
    let header := r.fill (junk 1) 0 64
    let ePhnum := field header 2 56
    if ePhnum > maxPhtPerElf then .error errTwo
    else
      let table := r.fill (junk 2) (field header 8 32) (ePhnum * 56)
      .ok ((range ePhnum).map (phtEntry table), .ofNat (field header 8 24))

/-! ## Loading -/

/-- What the loading of a segment does: the pages it maps, the ranges it writes, and what it
returns. Where a loop never ends it returns nothing. -/
structure Segment where
  pages : List ℕ
  writes : List (ℕ × ℕ)
  result : Option ℕ

/-- The page that `increase_paging_of_process_with_virt_addr` maps: it reads the bits 12 to 47 of
the address. -/
def mappedPage (virtAddr : ℕ) : ℕ :=
  virtAddr / 4096 % 2 ^ 36 * 4096

/-- The loop of `extend_cr3`: the pages it maps, and whether it ends. -/
def extendCr3Loop (stop : ℕ) : ℕ → ℕ → List ℕ × Bool
  | 0, _ => ([], false)
  | fuel + 1, i =>
    if i ≤ stop then
      let r := extendCr3Loop stop fuel (u64 (i + 4096))
      (mappedPage i :: r.1, r.2)
    else ([], true)

/-- `extend_cr3`. There are `2 ^ 52` pages, so a loop that has not ended after as many turns does
not end. -/
def extendCr3 (virtualMemOffset phtSizeInMem : ℕ) : List ℕ × Bool :=
  extendCr3Loop (u64 (virtualMemOffset + phtSizeInMem)) (2 ^ 52) (virtualMemOffset / 4096 * 4096)

def PhtEntry.vaddr (e : PhtEntry) (startOffset : ℕ) : ℕ :=
  u64 (e.pVaddr.toNat + startOffset)

def loadPhtToMemory (r : Reader) (e : PhtEntry) (startOffset : ℕ) : Segment :=
  if e.pType ≠ ptLoad then ⟨[], [], some 0⟩
  else
    let virtualMemOffset := e.vaddr startOffset
    let phtSizeInFile := e.pFilesz.toNat
    let phtSizeInMem := e.pMemsz.toNat
    let mapped := extendCr3 virtualMemOffset phtSizeInMem
    if mapped.2 = false then ⟨mapped.1, [], none⟩
    else if phtSizeInFile > phtSizeInMem then ⟨mapped.1, [], some errOne⟩
    else
      match r.readFile virtualMemOffset e.pOffset.toNat phtSizeInFile with
      | none => ⟨mapped.1, [], some errTwo⟩
      | some bytes =>
        ⟨mapped.1, (virtualMemOffset, bytes.length) ::
          if phtSizeInMem > phtSizeInFile then
            [(u64 (virtualMemOffset + phtSizeInFile), phtSizeInMem - phtSizeInFile)]
          else [],
          some phtSizeInMem⟩

/-- How `run_elf_process` goes on after it has loaded segments. -/
inductive Outcome where
  | loops
  | error (code : ℕ)
  | loaded (lastMemoryOffset : ℕ)
  deriving DecidableEq

/-- The loop of `run_elf_process` over the program headers. -/
def loadEntries (r : Reader) : List PhtEntry → ℕ → List Segment × Outcome
  | [], last => ([], .loaded last)
  | e :: entries, last =>
    let segment := loadPhtToMemory r e 0
    match segment.result with
    | none => ([segment], .loops)
    | some count =>
      if count = errOne ∨ count = errTwo then ([segment], .error count)
      else
        let rest := loadEntries r entries (u64 (last + count))
        (segment :: rest.1, rest.2)

/-- The loop of `load_so`, which does not look at the results, and whether it ends. -/
def loadSoEntries (r : Reader) (startOffset : ℕ) : List PhtEntry → List Segment × Bool
  | [] => ([], true)
  | e :: entries =>
    let segment := loadPhtToMemory r e startOffset
    match segment.result with
    | none => ([segment], false)
    | some _ =>
      let rest := loadSoEntries r startOffset entries
      (segment :: rest.1, rest.2)

/-- `load_so` and the test of its result. -/
def loadSo (ld : Reader) (junk : ℕ → ℕ → UInt8) (startOffset : ℕ) : List Segment × Outcome :=
  match readHeaders ld junk with
  | .error code => ([], .error code)
  | .ok (entries, eEntry) =>
    let segments := loadSoEntries ld startOffset entries
    let threadEntry := u64 (eEntry.toNat + startOffset)
    (segments.1,
      if segments.2 = false then .loops
      else if threadEntry = errOne ∨ threadEntry = errTwo then .error threadEntry
      else .loaded startOffset)

/-- `div_ceil(last_memory_offset, 4096) * 4096`. -/
def ldStart (lastMemoryOffset : ℕ) : ℕ :=
  u64 (divCeil lastMemoryOffset 4096 * 4096)

def hasInterp (entries : List PhtEntry) : Bool :=
  entries.any fun e => e.pType = ptInterp

/-- `run_elf_process` up to the start of its thread: what is loaded, and whether an error is
returned. `allowed` is what the tests of the path say. -/
def runElfProcess (allowed : Bool) (file ld : Reader) (junk ldJunk : ℕ → ℕ → UInt8) :
    List Segment × Outcome :=
  if allowed = false then ([], .error (2 ^ 64 - 13))
  else
    match readHeaders file junk with
    | .error code => ([], .error code)
    | .ok (entries, _) =>
      match loadEntries file entries 0 with
      | (segments, .loaded last) =>
        if hasInterp entries then
          let so := loadSo ld ldJunk (ldStart last)
          (segments ++ so.1, so.2)
        else (segments, .loaded last)
      | stopped => stopped

/-! ## The property and the condition -/

/-- Everything that the loading of a segment touches lies below `HM`. -/
def Segment.Below (s : Segment) : Prop :=
  (∀ page ∈ s.pages, page < HM) ∧ ∀ w ∈ s.writes, ∀ j < w.2, u64 (w.1 + j) < HM

/-- The segment lies below `HM`. -/
def PhtEntry.Fits (e : PhtEntry) : Prop :=
  e.pType = ptLoad → e.pVaddr.toNat + e.pMemsz.toNat ≤ HM

instance (e : PhtEntry) : Decidable e.Fits :=
  inferInstanceAs (Decidable (_ → _))

/-- Loading the file does not touch the half of the kernel, and a file with a segment that does not
fit is refused. -/
def KernelSafe (allowed : Bool) (file ld : Reader) (junk ldJunk : ℕ → ℕ → UInt8) : Prop :=
  (∀ s ∈ (runElfProcess allowed file ld junk ldJunk).1, s.Below) ∧
  ∀ entries eEntry, readHeaders file junk = .ok (entries, eEntry) →
    (∃ e ∈ entries, ¬e.Fits) →
      ∃ code, (runElfProcess allowed file ld junk ldJunk).2 = .error code

/-- The end of the segment, as the loop of `extend_cr3` has it, is in front of the first page, or
both lie in one range of `2 ^ 48` bytes and the end is below `HM` in it. -/
def PagesBelow (vaddr memsz : ℕ) : Prop :=
  u64 (vaddr + memsz) < vaddr / 4096 * 4096 ∨
    vaddr / 2 ^ 48 = u64 (vaddr + memsz) / 2 ^ 48 ∧ u64 (vaddr + memsz) % 2 ^ 48 < HM

def PhtEntry.Refused (r : Reader) (startOffset : ℕ) (e : PhtEntry) : Prop :=
  e.pFilesz > e.pMemsz ∨ e.pFilesz = 0 ∨ e.vaddr startOffset = 0 ∨ r.mounted = false

/-- What is written, `n` bytes from the file and zeros up to the end, lies below `HM`. -/
def WritesBelow (vaddr filesz memsz n : ℕ) : Prop :=
  (n = 0 ∨ vaddr + n ≤ HM) ∧
    (memsz = filesz ∨ vaddr + memsz ≤ HM ∨ 2 ^ 64 ≤ vaddr + filesz ∧ vaddr + memsz ≤ 2 ^ 64 + HM)

/-- The condition on a header for its loading to stay below `HM`. -/
def PhtEntry.Clean (r : Reader) (startOffset : ℕ) (e : PhtEntry) : Prop :=
  e.pType = ptLoad → PagesBelow (e.vaddr startOffset) e.pMemsz.toNat ∧
    (¬e.Refused r startOffset → WritesBelow (e.vaddr startOffset) e.pFilesz.toNat e.pMemsz.toNat
      (r.read e.pOffset.toNat e.pFilesz.toNat).length)

/-- The header makes `run_elf_process` return an error. The two largest sizes look like errors. -/
def PhtEntry.Rejected (r : Reader) (e : PhtEntry) : Prop :=
  e.pType = ptLoad ∧ (e.Refused r 0 ∨ 2 ^ 64 - 2 ≤ e.pMemsz.toNat)

instance (r : Reader) (start : ℕ) (e : PhtEntry) : Decidable (e.Refused r start) :=
  inferInstanceAs (Decidable (_ ∨ _))

instance (r : Reader) (e : PhtEntry) : Decidable (e.Rejected r) :=
  inferInstanceAs (Decidable (_ ∧ _))

/-- The headers up to the first one that is rejected. -/
def reached (r : Reader) : List PhtEntry → List PhtEntry
  | [] => []
  | e :: entries => if e.Rejected r then [e] else e :: reached r entries

/-- `last_memory_offset` after all segments: the sum of their sizes. -/
def lastMemory (entries : List PhtEntry) (last : ℕ) : ℕ :=
  entries.foldl (fun last e => u64 (last + if e.pType = ptLoad then e.pMemsz.toNat else 0)) last

def SoRejected (ld : Reader) (junk : ℕ → ℕ → UInt8) (startOffset : ℕ) : Prop :=
  ∀ entries eEntry, readHeaders ld junk = .ok (entries, eEntry) →
    u64 (eEntry.toNat + startOffset) = errOne ∨ u64 (eEntry.toNat + startOffset) = errTwo

/-- The headers that are reached are clean; if none is rejected, those of the interpreter are clean
too, and it is rejected or all segments of the file fit. -/
structure HeadersClean (file ld : Reader) (ldJunk : ℕ → ℕ → UInt8) (entries : List PhtEntry) :
    Prop where
  clean : ∀ e ∈ reached file entries, e.Clean file 0
  clean_so : (∀ e ∈ entries, ¬e.Rejected file) → hasInterp entries → ∀ soEntries eEntry,
    readHeaders ld ldJunk = .ok (soEntries, eEntry) →
      ∀ e ∈ soEntries, e.Clean ld (ldStart (lastMemory entries 0))
  fits : (∀ e ∈ entries, ¬e.Rejected file) →
    ¬(hasInterp entries ∧ SoRejected ld ldJunk (ldStart (lastMemory entries 0))) →
      ∀ e ∈ entries, e.Fits

/-! ## The pages -/

section Pages

variable {stop : ℕ}

theorem mappedPage_of_mod {i : ℕ} (hi : i % 4096 = 0) : mappedPage i = i % 2 ^ 48 := by
  unfold mappedPage
  omega

theorem mem_extendCr3Loop {fuel i k : ℕ} (hstop : stop < 2 ^ 64) (hk : k < fuel)
    (hle : i + 4096 * k ≤ stop) :
    mappedPage (i + 4096 * k) ∈ (extendCr3Loop stop fuel i).1 := by
  induction k generalizing fuel i with
  | zero =>
    obtain ⟨fuel, rfl⟩ : ∃ f, fuel = f + 1 := ⟨fuel - 1, by omega⟩
    rw [extendCr3Loop, if_pos (by omega)]
    exact mem_cons_self
  | succ k ih =>
    obtain ⟨fuel, rfl⟩ : ∃ f, fuel = f + 1 := ⟨fuel - 1, by omega⟩
    rw [extendCr3Loop, if_pos (by omega), u64_of_lt (by omega)]
    have hnext : i + 4096 + 4096 * k ≤ stop := by omega
    have := ih (Nat.lt_of_succ_lt_succ hk) hnext
    rw [show i + 4096 * (k + 1) = i + 4096 + 4096 * k by omega]
    exact mem_cons_of_mem _ this

theorem exists_of_mem_extendCr3Loop {fuel i page : ℕ} (hstop : stop < 2 ^ 64 - 4096)
    (hi : i % 4096 = 0) (h : page ∈ (extendCr3Loop stop fuel i).1) :
    ∃ j, i ≤ j ∧ j ≤ stop ∧ j % 4096 = 0 ∧ page = mappedPage j := by
  induction fuel generalizing i with
  | zero => cases h
  | succ fuel ih =>
    rw [extendCr3Loop] at h
    split_ifs at h with hle
    · rw [u64_of_lt (by omega)] at h
      rcases mem_cons.mp h with rfl | h
      · exact ⟨i, le_rfl, hle, hi, rfl⟩
      · obtain ⟨j, hij, hj⟩ := ih (by omega) h
        exact ⟨j, by omega, hj⟩
    · cases h

theorem extendCr3Loop_ends {fuel i : ℕ} (hstop : stop < 2 ^ 64 - 4096)
    (hlt : stop < i + 4096 * fuel) : (extendCr3Loop stop (fuel + 1) i).2 = true := by
  induction fuel generalizing i with
  | zero => rw [extendCr3Loop, if_neg (by omega)]
  | succ fuel ih =>
    rw [extendCr3Loop]
    split_ifs with hle
    · rw [u64_of_lt (by omega)]
      exact ih (by omega)
    · rfl

theorem exists_page_above {vaddr : ℕ} (hle : vaddr / 4096 * 4096 ≤ stop)
    (hnot : ¬(vaddr / 2 ^ 48 = stop / 2 ^ 48 ∧ stop % 2 ^ 48 < HM)) :
    ∃ page, vaddr / 4096 * 4096 ≤ page ∧ page ≤ stop ∧ page % 4096 = 0 ∧ HM ≤ page % 2 ^ 48 := by
  unfold HM at *
  by_cases hsame : vaddr / 2 ^ 48 = stop / 2 ^ 48
  · refine ⟨stop / 4096 * 4096, ?_⟩
    omega
  · refine ⟨vaddr / 2 ^ 48 * 2 ^ 48 + (2 ^ 48 - 4096), ?_⟩
    omega

/-- **The pages** lie below `HM` exactly when the condition holds. -/
theorem pages_below_iff (vaddr memsz : ℕ) :
    (∀ page ∈ (extendCr3 vaddr memsz).1, page < HM) ↔ PagesBelow vaddr memsz := by
  have hstop : u64 (vaddr + memsz) < 2 ^ 64 := Nat.mod_lt _ (by decide)
  obtain ⟨fuel, hfuel⟩ : ∃ fuel, 2 ^ 52 = fuel + 1 := ⟨2 ^ 52 - 1, by decide⟩
  rw [extendCr3, hfuel, PagesBelow]
  generalize u64 (vaddr + memsz) = stop at hstop
  have hfirst : vaddr / 4096 * 4096 % 4096 = 0 := by omega
  constructor
  · intro h
    by_contra hnot
    obtain ⟨hle, hnot⟩ := not_or.mp hnot
    obtain ⟨page, hle, hle', hmod, hge⟩ := exists_page_above (Nat.le_of_not_lt hle) hnot
    have heq : vaddr / 4096 * 4096 + 4096 * ((page - vaddr / 4096 * 4096) / 4096) = page := by
      omega
    have hturn : (page - vaddr / 4096 * 4096) / 4096 < fuel + 1 := by omega
    have hmem := mem_extendCr3Loop hstop hturn (heq.trans_le hle')
    rw [heq, mappedPage_of_mod hmod] at hmem
    exact absurd (h _ hmem) (Nat.not_lt.mpr hge)
  · intro h page hpage
    rcases h with hlt | ⟨hsame, hbelow⟩
    · -- the loop is not entered
      rw [extendCr3Loop, if_neg (by omega)] at hpage
      cases hpage
    · unfold HM at *
      obtain ⟨j, hle, hle', hmod, rfl⟩ :=
        exists_of_mem_extendCr3Loop (show stop < 2 ^ 64 - 4096 by omega) hfirst hpage
      rw [mappedPage_of_mod hmod]
      omega

theorem extendCr3_ends {vaddr memsz : ℕ} (h : PagesBelow vaddr memsz) :
    (extendCr3 vaddr memsz).2 = true := by
  have hstop : u64 (vaddr + memsz) < 2 ^ 64 := Nat.mod_lt _ (by decide)
  obtain ⟨fuel, hfuel⟩ : ∃ fuel, 2 ^ 52 = fuel + 1 := ⟨2 ^ 52 - 1, by decide⟩
  rw [extendCr3, hfuel]
  unfold PagesBelow HM at h
  generalize u64 (vaddr + memsz) = stop at hstop h
  rcases h with hlt | ⟨-, hbelow⟩
  · rw [extendCr3Loop, if_neg (by omega)]
  · exact extendCr3Loop_ends (show stop < 2 ^ 64 - 4096 by omega) (by omega)

end Pages

/-! ## One segment -/

section Segment

variable {r : Reader} {e : PhtEntry} {startOffset : ℕ}

theorem vaddr_lt (e : PhtEntry) (startOffset : ℕ) : e.vaddr startOffset < 2 ^ 64 :=
  Nat.mod_lt _ (by decide)

theorem range_below_iff {a n : ℕ} (ha : a + n < 2 ^ 65) :
    (∀ j < n, u64 (a + j) < HM) ↔
      n = 0 ∨ a + n ≤ HM ∨ 2 ^ 64 ≤ a ∧ a + n ≤ 2 ^ 64 + HM := by
  constructor
  · intro h
    by_contra hnot
    -- the first address, the last one, or the last before the range goes round
    have hfirst := h 0
    have hlast := h (n - 1)
    have hround := h (2 ^ 64 - 1 - a)
    unfold u64 HM at *
    omega
  · intro h j hj
    unfold u64 HM at *
    omega

theorem readFile_of_not_refused (h : ¬e.Refused r startOffset) :
    r.readFile (e.vaddr startOffset) e.pOffset.toNat e.pFilesz.toNat =
      some (r.read e.pOffset.toNat e.pFilesz.toNat) := by
  simp only [PhtEntry.Refused, not_or] at h
  obtain ⟨-, hne, haddr, hmounted⟩ := h
  have hne : e.pFilesz.toNat ≠ 0 := fun h0 => hne (UInt64.toNat_inj.mp h0)
  rw [Reader.readFile, if_neg (by simp [haddr, hne, hmounted])]

theorem loadPht_of_not_refused (hload : e.pType = ptLoad)
    (hends : (extendCr3 (e.vaddr startOffset) e.pMemsz.toNat).2 = true)
    (h : ¬e.Refused r startOffset) :
    loadPhtToMemory r e startOffset =
      ⟨(extendCr3 (e.vaddr startOffset) e.pMemsz.toNat).1,
        (e.vaddr startOffset, (r.read e.pOffset.toNat e.pFilesz.toNat).length) ::
          if e.pMemsz.toNat > e.pFilesz.toNat then
            [(u64 (e.vaddr startOffset + e.pFilesz.toNat), e.pMemsz.toNat - e.pFilesz.toNat)]
          else [],
        some e.pMemsz.toNat⟩ := by
  have hle : ¬e.pFilesz.toNat > e.pMemsz.toNat :=
    fun hgt => h (.inl (UInt64.lt_iff_toNat_lt.mpr hgt))
  rw [loadPhtToMemory, if_neg (by simp [hload]), if_neg (by simp [hends]), if_neg hle,
    readFile_of_not_refused h]

theorem loadPht_of_refused (hload : e.pType = ptLoad)
    (hends : (extendCr3 (e.vaddr startOffset) e.pMemsz.toNat).2 = true)
    (h : e.Refused r startOffset) : ∃ code, (code = errOne ∨ code = errTwo) ∧
      loadPhtToMemory r e startOffset =
        ⟨(extendCr3 (e.vaddr startOffset) e.pMemsz.toNat).1, [], some code⟩ := by
  by_cases hle : e.pFilesz.toNat > e.pMemsz.toNat
  · refine ⟨errOne, .inl rfl, ?_⟩
    rw [loadPhtToMemory, if_neg (by simp [hload]), if_neg (by simp [hends]), if_pos hle]
  · refine ⟨errTwo, .inr rfl, ?_⟩
    have hread : r.readFile (e.vaddr startOffset) e.pOffset.toNat e.pFilesz.toNat = none := by
      rw [Reader.readFile, if_pos]
      rcases h with h | h | h | h
      · exact absurd (UInt64.lt_iff_toNat_lt.mp h) hle
      · simp [h]
      · exact .inl h
      · exact .inr (.inr h)
    rw [loadPhtToMemory, if_neg (by simp [hload]), if_neg (by simp [hends]), if_neg hle, hread]

theorem pages_loadPht (hload : e.pType = ptLoad) :
    (loadPhtToMemory r e startOffset).pages =
      (extendCr3 (e.vaddr startOffset) e.pMemsz.toNat).1 := by
  rw [loadPhtToMemory, if_neg (by simp [hload])]
  dsimp only
  split
  · rfl
  · split
    · rfl
    · split <;> rfl

/-- **One segment** stays below `HM` exactly when its header is clean. -/
theorem below_iff_clean (r : Reader) (startOffset : ℕ) (e : PhtEntry) :
    (loadPhtToMemory r e startOffset).Below ↔ e.Clean r startOffset := by
  by_cases hload : e.pType = ptLoad
  · have hpages := pages_below_iff (e.vaddr startOffset) e.pMemsz.toNat
    rw [Segment.Below, pages_loadPht hload, hpages, PhtEntry.Clean]
    simp only [hload, true_imp_iff]
    refine and_congr_right fun hbelow => ?_
    have hends := extendCr3_ends hbelow
    by_cases hrefused : e.Refused r startOffset
    · obtain ⟨code, -, heq⟩ := loadPht_of_refused hload hends hrefused
      simp [heq, hrefused]
    · rw [loadPht_of_not_refused hload hends hrefused]
      have hv := vaddr_lt e startOffset
      have hn := r.length_le e.pOffset.toNat e.pFilesz.toNat
      have hm := e.pMemsz.toNat_lt
      have hle : e.pFilesz.toNat ≤ e.pMemsz.toNat := by
        by_contra hgt
        exact hrefused (.inl (UInt64.lt_iff_toNat_lt.mpr (by omega)))
      have hread := range_below_iff (show e.vaddr startOffset +
        (r.read e.pOffset.toNat e.pFilesz.toNat).length < 2 ^ 65 by omega)
      have herase := range_below_iff (show e.vaddr startOffset + e.pFilesz.toNat +
        (e.pMemsz.toNat - e.pFilesz.toNat) < 2 ^ 65 by omega)
      have hround : ∀ a j, u64 (u64 a + j) = u64 (a + j) := fun a j => Nat.mod_add_mod a _ j
      simp only [hrefused, not_false_eq_true, true_imp_iff, WritesBelow]
      split_ifs with hgt
      · simp only [mem_cons, not_mem_nil, or_false, forall_eq_or_imp, forall_eq, hround,
          hread, herase]
        omega
      · simp only [mem_cons, not_mem_nil, or_false, forall_eq, hread]
        omega
  · have heq : loadPhtToMemory r e startOffset = ⟨[], [], some 0⟩ := by
      rw [loadPhtToMemory, if_pos hload]
    simp [heq, Segment.Below, PhtEntry.Clean, hload]

theorem result_of_clean (h : e.Clean r startOffset) :
    ∃ count, (loadPhtToMemory r e startOffset).result = some count := by
  by_cases hload : e.pType = ptLoad
  · have hends := extendCr3_ends (h hload).1
    by_cases hrefused : e.Refused r startOffset
    · obtain ⟨code, -, heq⟩ := loadPht_of_refused hload hends hrefused
      exact ⟨code, by rw [heq]⟩
    · exact ⟨_, by rw [loadPht_of_not_refused hload hends hrefused]⟩
  · exact ⟨0, by rw [loadPhtToMemory, if_pos hload]⟩

theorem result_eq_error_iff (h : e.Clean r 0) {count : ℕ}
    (hresult : (loadPhtToMemory r e 0).result = some count) :
    (count = errOne ∨ count = errTwo) ↔ e.Rejected r := by
  by_cases hload : e.pType = ptLoad
  · have hends := extendCr3_ends (h hload).1
    by_cases hrefused : e.Refused r 0
    · obtain ⟨code, hcode, heq⟩ := loadPht_of_refused hload hends hrefused
      rw [heq] at hresult
      cases hresult
      simp [hcode, PhtEntry.Rejected, hload, hrefused]
    · rw [loadPht_of_not_refused hload hends hrefused] at hresult
      cases hresult
      have hm := e.pMemsz.toNat_lt
      simp only [PhtEntry.Rejected, hload, hrefused, false_or, true_and, errOne, errTwo]
      omega
  · rw [loadPhtToMemory, if_pos hload] at hresult
    cases hresult
    simp [PhtEntry.Rejected, hload, errOne, errTwo]

theorem result_of_not_rejected (h : e.Clean r 0) (hrejected : ¬e.Rejected r) :
    (loadPhtToMemory r e 0).result = some (if e.pType = ptLoad then e.pMemsz.toNat else 0) := by
  by_cases hload : e.pType = ptLoad
  · have hrefused : ¬e.Refused r 0 := fun hrefused => hrejected ⟨hload, .inl hrefused⟩
    rw [loadPht_of_not_refused hload (extendCr3_ends (h hload).1) hrefused, if_pos hload]
  · rw [loadPhtToMemory, if_pos hload, if_neg hload]

end Segment

/-! ## A file -/

section File

variable {file ld : Reader} {junk ldJunk : ℕ → ℕ → UInt8} {entries : List PhtEntry}

/-- **The loop of `run_elf_process`** stays below `HM` exactly when the headers that it reaches are
clean. -/
theorem loadEntries_below_iff (r : Reader) (entries : List PhtEntry) (last : ℕ) :
    (∀ s ∈ (loadEntries r entries last).1, s.Below) ↔ ∀ e ∈ reached r entries, e.Clean r 0 := by
  induction entries generalizing last with
  | nil => simp [loadEntries, reached]
  | cons e entries ih =>
    by_cases hclean : e.Clean r 0
    · have hbelow := (below_iff_clean r 0 e).mpr hclean
      obtain ⟨count, hresult⟩ := result_of_clean hclean
      have herror := result_eq_error_iff hclean hresult
      rw [loadEntries, hresult, reached]
      by_cases hrejected : e.Rejected r
      · simp [hrejected, herror.mpr hrejected, hbelow, hclean]
      · simp [hrejected, mt herror.mp hrejected, hbelow, hclean, ih]
    · have hbelow := mt (below_iff_clean r 0 e).mp hclean
      have hhead : loadPhtToMemory r e 0 ∈ (loadEntries r (e :: entries) last).1 := by
        rw [loadEntries]
        cases (loadPhtToMemory r e 0).result with
        | none => exact mem_cons_self
        | some count =>
          dsimp only
          split <;> exact mem_cons_self
      have hreached : e ∈ reached r (e :: entries) := by
        rw [reached]
        split_ifs <;> exact mem_cons_self
      exact iff_of_false (fun h => hbelow (h _ hhead)) fun h => hclean (h _ hreached)

/-- How the loop ends when the headers that it reaches are clean. -/
theorem loadEntries_outcome {r : Reader} (last : ℕ) (h : ∀ e ∈ reached r entries, e.Clean r 0) :
    ((∀ e ∈ entries, ¬e.Rejected r) →
      (loadEntries r entries last).2 = .loaded (lastMemory entries last)) ∧
    ((∃ e ∈ entries, e.Rejected r) → ∃ code, (loadEntries r entries last).2 = .error code) := by
  induction entries generalizing last with
  | nil => simp [loadEntries, lastMemory]
  | cons e entries ih =>
    have hclean : e.Clean r 0 := by
      refine h e ?_
      rw [reached]
      split_ifs <;> exact mem_cons_self
    by_cases hrejected : e.Rejected r
    · obtain ⟨count, hresult⟩ := result_of_clean hclean
      have herror := (result_eq_error_iff hclean hresult).mpr hrejected
      refine ⟨fun hnone => absurd hrejected (hnone e mem_cons_self), fun _ => ⟨count, ?_⟩⟩
      rw [loadEntries, hresult]
      dsimp only
      rw [if_pos herror]
    · have hresult := result_of_not_rejected hclean hrejected
      have herror := mt (result_eq_error_iff hclean hresult).mp hrejected
      have hrest : ∀ e ∈ reached r entries, e.Clean r 0 := by
        intro e' he'
        refine h e' ?_
        rw [reached, if_neg hrejected]
        exact mem_cons_of_mem _ he'
      obtain ⟨hloaded, hcode⟩ :=
        ih (u64 (last + if e.pType = ptLoad then e.pMemsz.toNat else 0)) hrest
      have hstep : (loadEntries r (e :: entries) last).2 = (loadEntries r entries
          (u64 (last + if e.pType = ptLoad then e.pMemsz.toNat else 0))).2 := by
        rw [loadEntries, hresult]
        dsimp only
        rw [if_neg herror]
      rw [hstep]
      constructor
      · intro hnone
        exact hloaded fun e' he' => hnone e' (mem_cons_of_mem _ he')
      · rintro ⟨e', he', hrej⟩
        rcases mem_cons.mp he' with rfl | he'
        · exact absurd hrej hrejected
        · exact hcode ⟨e', he', hrej⟩

/-- **The loop of `load_so`** stays below `HM` exactly when all headers are clean, and then it
ends. -/
theorem loadSoEntries_below_iff (r : Reader) (startOffset : ℕ) (entries : List PhtEntry) :
    (∀ s ∈ (loadSoEntries r startOffset entries).1, s.Below) ↔
      ∀ e ∈ entries, e.Clean r startOffset := by
  induction entries with
  | nil => simp [loadSoEntries]
  | cons e entries ih =>
    by_cases hclean : e.Clean r startOffset
    · have hbelow := (below_iff_clean r startOffset e).mpr hclean
      obtain ⟨count, hresult⟩ := result_of_clean hclean
      rw [loadSoEntries, hresult]
      simp [hbelow, hclean, ih]
    · have hbelow := mt (below_iff_clean r startOffset e).mp hclean
      have hhead : loadPhtToMemory r e startOffset ∈
          (loadSoEntries r startOffset (e :: entries)).1 := by
        rw [loadSoEntries]
        cases (loadPhtToMemory r e startOffset).result <;> exact mem_cons_self
      exact iff_of_false (fun h => hbelow (h _ hhead)) fun h => hclean (h _ mem_cons_self)

theorem loadSoEntries_ends {r : Reader} {startOffset : ℕ}
    (h : ∀ e ∈ entries, e.Clean r startOffset) :
    (loadSoEntries r startOffset entries).2 = true := by
  induction entries with
  | nil => rfl
  | cons e entries ih =>
    obtain ⟨count, hresult⟩ := result_of_clean (h e mem_cons_self)
    rw [loadSoEntries, hresult]
    exact ih fun e' he' => h e' (mem_cons_of_mem _ he')

theorem loadSo_below_iff (ld : Reader) (junk : ℕ → ℕ → UInt8) (startOffset : ℕ) :
    (∀ s ∈ (loadSo ld junk startOffset).1, s.Below) ↔
      ∀ entries eEntry, readHeaders ld junk = .ok (entries, eEntry) →
        ∀ e ∈ entries, e.Clean ld startOffset := by
  rw [loadSo]
  cases readHeaders ld junk with
  | error code => simp
  | ok headers =>
    obtain ⟨entries, eEntry⟩ := headers
    simp only [loadSoEntries_below_iff, Except.ok.injEq, Prod.mk.injEq]
    constructor
    · rintro h _ _ ⟨rfl, -⟩
      exact h
    · intro h
      exact h entries eEntry ⟨rfl, rfl⟩

theorem loadSo_outcome_iff {startOffset : ℕ} (h : ∀ entries eEntry,
    readHeaders ld junk = .ok (entries, eEntry) → ∀ e ∈ entries, e.Clean ld startOffset) :
    (∃ code, (loadSo ld junk startOffset).2 = .error code) ↔ SoRejected ld junk startOffset := by
  rw [loadSo, SoRejected]
  cases hheaders : readHeaders ld junk with
  | error code => simp
  | ok headers =>
    obtain ⟨entries, eEntry⟩ := headers
    have hends := loadSoEntries_ends (h entries eEntry hheaders)
    simp only [hends, Bool.true_eq_false, if_false]
    constructor
    · rintro ⟨code, hcode⟩ entries' eEntry' heq
      obtain ⟨-, rfl⟩ := Prod.mk.inj (Except.ok.inj heq)
      by_contra hnot
      rw [if_neg hnot] at hcode
      cases hcode
    · intro hall
      rw [if_pos (hall entries eEntry rfl)]
      exact ⟨_, rfl⟩

section Headers

variable {eEntry : UInt64} (h : readHeaders file junk = .ok (entries, eEntry))
include h

theorem subset_runElfProcess :
    (loadEntries file entries 0).1 ⊆ (runElfProcess true file ld junk ldJunk).1 := by
  rw [runElfProcess, if_neg (by simp), h]
  dsimp only
  split
  · rename_i segments last heq
    rw [heq]
    split_ifs
    · exact subset_append_left _ _
    · exact List.Subset.refl _
  · exact List.Subset.refl _

theorem runElfProcess_of_error {code : ℕ} (hout : (loadEntries file entries 0).2 = .error code) :
    runElfProcess true file ld junk ldJunk = loadEntries file entries 0 := by
  rw [runElfProcess, if_neg (by simp), h]
  dsimp only
  generalize loadEntries file entries 0 = r at hout
  obtain ⟨segments, out⟩ := r
  obtain rfl : out = .error code := hout
  rfl

theorem runElfProcess_of_loaded {last : ℕ} (hout : (loadEntries file entries 0).2 = .loaded last) :
    runElfProcess true file ld junk ldJunk =
      if hasInterp entries then
        ((loadEntries file entries 0).1 ++ (loadSo ld ldJunk (ldStart last)).1,
          (loadSo ld ldJunk (ldStart last)).2)
      else ((loadEntries file entries 0).1, .loaded last) := by
  rw [runElfProcess, if_neg (by simp), h]
  dsimp only
  generalize loadEntries file entries 0 = r at hout
  obtain ⟨segments, out⟩ := r
  obtain rfl : out = .loaded last := hout
  rfl

theorem kernelSafe_iff_of_headers :
    KernelSafe true file ld junk ldJunk ↔
      (∀ s ∈ (runElfProcess true file ld junk ldJunk).1, s.Below) ∧
      ((∃ e ∈ entries, ¬e.Fits) →
        ∃ code, (runElfProcess true file ld junk ldJunk).2 = .error code) := by
  refine and_congr_right fun _ => ⟨fun hall => hall entries eEntry h, ?_⟩
  intro hone entries' eEntry' h'
  rw [h] at h'
  obtain ⟨rfl, -⟩ := Prod.mk.inj (Except.ok.inj h')
  exact hone

/-- The kernel is safe from a file whose headers can be read exactly when they are clean. -/
theorem kernelSafe_iff_headersClean :
    KernelSafe true file ld junk ldJunk ↔ HeadersClean file ld ldJunk entries := by
  have hbelow := loadEntries_below_iff file entries 0
  rw [kernelSafe_iff_of_headers h]
  by_cases hclean : ∀ e ∈ reached file entries, e.Clean file 0
  · obtain ⟨hloaded, hcode⟩ := loadEntries_outcome 0 hclean
    by_cases hrejected : ∃ e ∈ entries, e.Rejected file
    · -- the file is refused at the first header that is rejected
      obtain ⟨code, hout⟩ := hcode hrejected
      obtain ⟨e, he, hrej⟩ := hrejected
      rw [runElfProcess_of_error h hout]
      refine iff_of_true ⟨hbelow.mpr hclean, fun _ => ⟨code, hout⟩⟩ ⟨hclean, ?_, ?_⟩
      · exact fun hnone => absurd hrej (hnone e he)
      · exact fun hnone => absurd hrej (hnone e he)
    · have hnone : ∀ e ∈ entries, ¬e.Rejected file := by
        intro e he hrej
        exact hrejected ⟨e, he, hrej⟩
      have hout := hloaded hnone
      have hfits : (¬∃ e ∈ entries, ¬e.Fits) ↔ ∀ e ∈ entries, e.Fits := by
        simp only [not_exists, not_and, not_not]
      rw [runElfProcess_of_loaded h hout]
      by_cases hinterp : hasInterp entries
      · have hso := loadSo_below_iff ld ldJunk (ldStart (lastMemory entries 0))
        simp only [hinterp, if_true, forall_mem_append, hbelow, hso]
        constructor
        · rintro ⟨⟨-, hcleanSo⟩, himp⟩
          refine ⟨hclean, fun _ _ => hcleanSo, fun _ hsafe => hfits.mp fun hex => hsafe ?_⟩
          exact ⟨hinterp, (loadSo_outcome_iff hcleanSo).mp (himp hex)⟩
        · intro hheaders
          have hcleanSo := hheaders.clean_so hnone hinterp
          refine ⟨⟨hclean, hcleanSo⟩, fun hex => ?_⟩
          by_contra hno
          refine absurd hex (hfits.mpr (hheaders.fits hnone fun hsafe => hno ?_))
          exact (loadSo_outcome_iff hcleanSo).mpr hsafe.2
      · rw [if_neg hinterp]
        constructor
        · rintro ⟨-, himp⟩
          refine ⟨hclean, fun _ hi => absurd hi hinterp, fun _ _ => hfits.mp fun hex => ?_⟩
          obtain ⟨code, hcode⟩ := himp hex
          cases hcode
        · intro hheaders
          refine ⟨hbelow.mpr hclean, fun hex => absurd hex (hfits.mpr ?_)⟩
          exact hheaders.fits hnone fun hsafe => hinterp hsafe.1
  · refine iff_of_false (fun hsafe => hclean (hbelow.mp fun s hs => ?_)) fun hh => hclean hh.clean
    exact hsafe.1 s (subset_runElfProcess h hs)

end Headers

end File

/-- **When the kernel is safe from a file**: it may not be executed, its headers cannot be read, or
they are clean. -/
theorem kernelSafe_iff (allowed : Bool) (file ld : Reader) (junk ldJunk : ℕ → ℕ → UInt8) :
    KernelSafe allowed file ld junk ldJunk ↔
      (allowed = true → ∀ entries eEntry, readHeaders file junk = .ok (entries, eEntry) →
        HeadersClean file ld ldJunk entries) := by
  cases allowed with
  | false => simp [KernelSafe, runElfProcess]
  | true =>
    cases hheaders : readHeaders file junk with
    | error code => simp [KernelSafe, runElfProcess, hheaders]
    | ok headers =>
      obtain ⟨entries, eEntry⟩ := headers
      rw [kernelSafe_iff_headersClean hheaders]
      constructor
      · rintro h - entries' eEntry' heq
        obtain ⟨rfl, -⟩ := Prod.mk.inj (Except.ok.inj heq)
        exact h
      · intro h
        exact h rfl entries eEntry rfl

/-! ## A file over the kernel -/

/-- The bytes of a file with one program header: a segment of two bytes at `HM`. -/
def overKernel : List UInt8 :=
  [0x7F, 0x45, 0x4C, 0x46] ++ replicate 28 0 ++ [64] ++ replicate 23 0 ++ [1, 0] ++
    replicate 6 0 ++
    [1, 0, 0, 0] ++ replicate 4 0 ++ [8, 0, 0, 0, 0, 0, 0, 0] ++ [0, 0, 0, 0, 0, 0x40, 0, 0] ++
    replicate 8 0 ++ [2, 0, 0, 0, 0, 0, 0, 0] ++ [2, 0, 0, 0, 0, 0, 0, 0] ++ replicate 8 0

def Reader.ofBytes (bytes : List UInt8) : Reader where
  mounted := true
  read offset count := (bytes.drop offset).take count
  length_le offset count := by
    rw [length_take]
    omega

/-- **A segment at `HM`** is loaded: its page is mapped, its two bytes are written, and no error is
returned. -/
theorem segment_in_kernel_half :
    (runElfProcess true (.ofBytes overKernel) (.ofBytes []) (fun _ _ => 0) fun _ _ => 0).2 =
      .loaded 2 ∧
    (∃ s ∈ (runElfProcess true (.ofBytes overKernel) (.ofBytes []) (fun _ _ => 0)
      fun _ _ => 0).1, HM ∈ s.pages ∧ (HM, 2) ∈ s.writes) ∧
    ¬KernelSafe true (.ofBytes overKernel) (.ofBytes []) (fun _ _ => 0) fun _ _ => 0 := by
  refine (fun hsegments => ⟨by decide, hsegments, ?_⟩) (by decide)
  intro hsafe
  obtain ⟨s, hs, hpage, -⟩ := hsegments
  exact absurd ((hsafe.1 s hs).1 HM hpage) (Nat.lt_irrefl HM)

end CarrotOS.Elf
