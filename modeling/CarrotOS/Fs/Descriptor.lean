import CarrotOS.Fs.Routing
import CarrotOS.Lib.Bytes

/-!
# File descriptors

The calls are in `core/syscall/syscall1.h`, `core/syscall/syscall2.h` and
`core/filesytem/filesystem.h`. A process has a table of descriptors of 80 bytes each. A descriptor
holds the index of a pointer of `fd_global`, which points to the path of its file, and an offset.
Each call is to touch only the descriptors it is called with.

`sys_close` takes the file of descriptor 0 whatever it closes, erases the first 51 descriptors and 8
bytes that start 64 bytes times the number of the descriptor into the table, and clears the pointer
at eight times the index. `dup2` closes the new descriptor if it is free and not if it is in use.
`read_file` and `write_file` return 0, so no offset ever advances; a read without a buffer or of no
bytes adds its error to the offset. `sys_write` writes to the file of descriptor 0.
`is_special_dirent` has no way to return false, so `sys_open` does not open regular files as such.

The memory from `fd_addr` on is a function from addresses to bytes, and so are the words from
`fd_global` on; the blocks of the global files are apart. A null pointer or an address that wraps
around is not followed: such a call has no successor.
-/

namespace CarrotOS

open Word Bytes Transition Function List Option
open Fat32 (slash)

/-! ## The state -/

/-- `struct file`. The default value is the one whose bytes are all zero. -/
structure GlobalFile where
  id : ℕ
  path : List UInt8
  offset : ℕ
  openFlags : ℕ
  type : FileType
  deriving DecidableEq, Repr, Inhabited

/-- The numbers of `enum file_type` that are used. -/
def fileNone : ℕ := 0

@[inherit_doc fileNone]
def fileRegular : ℕ := 1

@[inherit_doc fileNone]
def fileTty : ℕ := 7

@[inherit_doc fileNone]
def fileSpecial : ℕ := 10

def sizeofFileInner : ℕ := 80

/-- The tables of the file system, the states of the partitions, the memory from `fd_addr` on, and
the words from `fd_global` on with what they point to. -/
structure FdState (σ : Type) where
  vfs : Vfs σ
  devices : ℕ → σ
  table : ℕ → UInt8
  fdGlobal : ℕ → ℕ
  files : ℕ → GlobalFile

/-- What a call leaves: the state, its result and the bytes that are now in the buffer. -/
structure FdEffect (σ : Type) where
  state : FdState σ
  result : ℕ
  delivered : List UInt8

variable {σ : Type}

namespace FdState

def field (st : FdState σ) (fd off k : ℕ) : ℕ :=
  leNat k fun i => st.table (sizeofFileInner * fd + off + i)

def globalId (st : FdState σ) (fd : ℕ) : ℕ := st.field fd 0 8

def offset (st : FdState σ) (fd : ℕ) : ℕ := st.field fd 56 8

def openFlags (st : FdState σ) (fd : ℕ) : ℕ := st.field fd 64 4

def type (st : FdState σ) (fd : ℕ) : ℕ := st.field fd 68 4

def setField (st : FdState σ) (fd off k x : ℕ) : FdState σ :=
  { st with table := blit st.table (sizeofFileInner * fd + off) k (leByte x) }

/-- The index of the word that `fd_global[file->global_id]` reads. -/
def globalIndex (st : FdState σ) (fd : ℕ) : ℕ := st.globalId fd % 2 ^ 61

/-! ## Opening -/

/-- `memcmp(p, q, n) == 0`, from byte `i` on. A byte that cannot be read leaves no result. -/
def memcmpEq (p q : ℕ → Option UInt8) : ℕ → ℕ → Option Bool
  | 0, _ => some true
  | rest + 1, i => do
    let a ← p i
    let b ← q i
    if a ≠ b then some false else memcmpEq p q rest (i + 1)

/-- The loop of `strlen`: where the string at `pos` ends. -/
def strEnd (mem : ℕ → Option UInt8) : ℕ → ℕ → Option ℕ
  | 0, _ => none
  | fuel + 1, pos => do
    if (← mem pos) = 0 then some pos else strEnd mem fuel (pos + 1)

/-- `list_of_system_folders`, a constant of 19 bytes with its NUL. -/
def systemFolders : List UInt8 :=
  [0x2f, 0x73, 0x79, 0x73, 0x2f, 0, 0x2f, 0x70, 0x72, 0x6f, 0x63, 0x2f, 0,
    0x2f, 0x64, 0x65, 0x76, 0x2f, 0]

/-- `is_special_dirent` from the position `pos` on. `path` reads the bytes from the path on, and
`mem` those from the list of folders on. -/
def isSpecialDirent (path mem : ℕ → Option UInt8) : ℕ → ℕ → Option Bool
  | 0, _ => none
  | fuel + 1, pos => do
    if ← memcmpEq path (fun i => mem (pos + i)) 5 0 then some true
    else isSpecialDirent path mem fuel ((← strEnd mem fuel pos) + 1)

/-- What stands in memory behind the list of folders and behind a path, and for how many turns the
loops are followed. -/
structure Behind where
  folders : ℕ → UInt8
  path : ℕ → UInt8
  fuel : ℕ

/-- A string in memory, with what is behind it. -/
def withBehind (bytes : List UInt8) (behind : ℕ → UInt8) (i : ℕ) : Option UInt8 :=
  some (bytes[i]?.getD (behind i))

/-- `get_a_free_slot_with_size(fd_addr, start, MAX_FD_INNER, sizeof(struct file_inner))`: the start
and the bound are numbers of bytes, so only the first descriptors are tried. -/
def getAFreeSlotWithSize (st : FdState σ) (start : ℕ) : Option ℕ :=
  firstSlot start maxFdInner sizeofFileInner (freeBytes st.table sizeofFileInner)

/-- The ends of `sys_open_tty` and `sys_open_special_dirent`, which differ in the type. The address
is that of a new block. -/
def openNew (st : FdState σ) (path : List UInt8) (flags block : ℕ) (type : FileType)
    (typeNumber : ℕ) : Option (FdEffect σ) := do
  let fdIdInner ← st.getAFreeSlotWithSize 0
  let fdIdGlobal ← getAFreeSlot st.fdGlobal 0 maxFd
  if path.length < 512 then
    let st := { st with
      fdGlobal := update st.fdGlobal fdIdGlobal block
      files := update st.files block
        { id := fdIdGlobal, path := path, offset := 0, openFlags := u32 flags, type } }
    let st := st.setField fdIdInner 0 8 fdIdGlobal
    let st := st.setField fdIdInner 56 8 0
    let st := st.setField fdIdInner 64 4 flags
    let st := st.setField fdIdInner 68 4 typeNumber
    some ⟨st, fdIdInner, []⟩
  else none

def devTty : List UInt8 := [0x2f, 0x64, 0x65, 0x76, 0x2f, 0x74, 0x74, 0x79]

def procFolder : List UInt8 := [0x2f, 0x70, 0x72, 0x6f, 0x63, 0x2f]

/-- The path is in `/dev/` or `/sys/`, which have no files. -/
def InEmptyFolder (path : List UInt8) : Prop :=
  path.take 5 = [0x2f, 0x64, 0x65, 0x76, 0x2f] ∨ path.take 5 = [0x2f, 0x73, 0x79, 0x73, 0x2f]

instance InEmptyFolder.decidable (path : List UInt8) : Decidable (InEmptyFolder path) :=
  inferInstanceAs (Decidable (_ ∨ _))

/-- `sys_open_special_dirent`. `open_proc_file` looks at the path alone; `accepted` is its
verdict. -/
def sysOpenSpecialDirent (st : FdState σ) (accepted : Bool) (path : List UInt8) (flags block : ℕ) :
    Option (FdEffect σ) :=
  if path.take 6 = procFolder ∧ accepted = false ∨ InEmptyFolder path then
    some ⟨st, errno eInval, []⟩
  else st.openNew path flags block .special fileSpecial

def sysOpen (st : FdState σ) (behind : Behind) (accepted : Bool) (path : List UInt8)
    (flags block : ℕ) : Option (FdEffect σ) :=
  if path.take 8 = devTty then st.openNew path flags block .tty fileTty
  else do
    if ← isSpecialDirent (withBehind (path ++ [0]) behind.path)
        (withBehind systemFolders behind.folders) behind.fuel 0 then
      st.sysOpenSpecialDirent accepted path flags block
    -- the call of `sys_open_dirent` is not reached
    else none

/-- The path begins with a folder of the list. -/
def Special (path : List UInt8) : Prop :=
  ∃ folder ∈ [[0x2f, 0x73, 0x79, 0x73, 0x2f], procFolder, [0x2f, 0x64, 0x65, 0x76, 0x2f]],
    folder <+: path

/-- The search ends, reads nothing but the path and the list, each with its NUL, and tells whether
the path is special. -/
def Classifies (path : List UInt8) : Prop :=
  ∃ fuel r, isSpecialDirent (fun i => (path ++ [0])[i]?) (fun i => systemFolders[i]?) fuel 0 =
    some r ∧ (r = true ↔ Special path)

theorem memcmpEq_spec {p q : ℕ → Option UInt8} {n i : ℕ} (h : memcmpEq p q n i = some true) :
    ∀ j < n, p (i + j) = q (i + j) := by
  induction n generalizing i with
  | zero => exact fun j hj => absurd hj (Nat.not_lt_zero j)
  | succ n ih =>
    obtain ⟨a, ha, h⟩ := bind_eq_some_iff.mp h
    obtain ⟨b, hb, h⟩ := bind_eq_some_iff.mp h
    by_cases hab : a = b
    case neg =>
      rw [if_pos hab] at h
      cases h
    rw [if_neg (not_not.mpr hab)] at h
    intro j hj
    cases j with
    | zero => rw [Nat.add_zero, ha, hb, hab]
    | succ j =>
      rw [← Nat.succ_add_eq_add_succ]
      exact ih h j (Nat.lt_of_succ_lt_succ hj)

/-- The search ends only at a place in memory where the first five bytes of the path stand. -/
theorem isSpecialDirent_spec {path mem : ℕ → Option UInt8} {fuel pos : ℕ} {r : Bool}
    (h : isSpecialDirent path mem fuel pos = some r) :
    r = true ∧ ∃ pos, memcmpEq path (fun i => mem (pos + i)) 5 0 = some true := by
  induction fuel generalizing pos with
  | zero => cases h
  | succ fuel ih =>
    obtain ⟨same, hsame, h⟩ := bind_eq_some_iff.mp h
    cases same with
    | true =>
      cases h
      exact ⟨rfl, pos, hsame⟩
    | false =>
      obtain ⟨stop, -, h⟩ := bind_eq_some_iff.mp h
      exact ih h

/-- **The paths that are classified are the special ones**: the search has no other end. -/
theorem classifies_iff (path : List UInt8) : Classifies path ↔ Special path := by
  constructor
  · rintro ⟨fuel, r, hr, hspecial⟩
    exact hspecial.mp (isSpecialDirent_spec hr).1
  · rintro ⟨folder, hfolder, rest, rfl⟩
    refine ⟨20, true, ?_, fun _ => ⟨folder, hfolder, rest, rfl⟩, fun _ => rfl⟩
    simp only [mem_cons, not_mem_nil, or_false] at hfolder
    rcases hfolder with rfl | rfl | rfl <;> rfl

/-- **No answer for `/tmp`**: it is not classified, and with zeros behind the list the loop does not
end. -/
theorem tmp_not_classified : ¬Classifies [0x2f, 0x74, 0x6d, 0x70] ∧ ∀ behind fuel,
    isSpecialDirent (withBehind [0x2f, 0x74, 0x6d, 0x70, 0] behind)
      (withBehind systemFolders fun _ => 0) fuel 0 = none := by
  constructor
  · rintro ⟨fuel, r, hr, hspecial⟩
    exact absurd (hspecial.mp (isSpecialDirent_spec hr).1) (by simp [Special, procFolder])
  · intro behind fuel
    refine eq_none_iff_forall_ne_some.mpr fun r hr => ?_
    obtain ⟨-, pos, hpos⟩ := isSpecialDirent_spec hr
    have hsame := memcmpEq_spec hpos
    have hslash : systemFolders[pos]?.getD 0 = 0x2f := (some.inj (hsame 0 (by decide))).symm
    have ht : systemFolders[pos + 1]?.getD 0 = 0x74 := (some.inj (hsame 1 (by decide))).symm
    have hlt : pos < 19 := by
      by_contra hge
      rw [getElem?_eq_none (Nat.le_of_not_lt hge)] at hslash
      cases hslash
    have hnone : ∀ pos < 19, systemFolders[pos]?.getD 0 = 0x2f →
        systemFolders[pos + 1]?.getD 0 ≠ 0x74 := by decide
    exact hnone pos hlt hslash ht

/-! ## Closing -/

def Erased (fd i : ℕ) : Prop := i < 4096 ∨ 64 * fd ≤ i ∧ i < 64 * fd + 8

instance Erased.decidable (fd i : ℕ) : Decidable (Erased fd i) :=
  inferInstanceAs (Decidable (_ ∨ _))

/-- The index of the word that `*((uint64_t *)fd_global + 8 * fd_id_global) = 0` clears. -/
def clearedIndex (st : FdState σ) : ℕ := 8 * st.globalId 0 % 2 ^ 61

/-- What `sys_close` leaves. The identifier is that of descriptor 0. -/
def closed (st : FdState σ) (fd : ℕ) : FdState σ :=
  { st with
    table := fun i => if Erased fd i then 0 else st.table i
    files := update st.files (st.fdGlobal (st.globalIndex 0)) default
    fdGlobal := update st.fdGlobal st.clearedIndex 0 }

/-- `sys_close` after its first test. -/
def close (st : FdState σ) (fd : ℕ) : Option (FdState σ) :=
  if st.fdGlobal (st.globalIndex 0) = 0 then none else some (st.closed fd)

/-- `sys_close`. The product of the number and 8 is an `int`. -/
def sysClose (st : FdState σ) (fd : ℤ) : Option (FdEffect σ) :=
  if fd < 0 then some ⟨st, errno eInval, []⟩
  else if 2 ^ 31 ≤ 8 * fd then none
  else (st.close fd.toNat).map fun st => ⟨st, 0, []⟩

/-- The `memcpy` of `dup2`. -/
def copyDescriptor (st : FdState σ) (oldfd newfd : ℕ) : FdState σ :=
  { st with
    table := blit st.table (sizeofFileInner * newfd) sizeofFileInner fun i =>
      st.table (sizeofFileInner * oldfd + i) }

def dup2 (st : FdState σ) (oldfd newfd : ℕ) : Option (FdEffect σ) :=
  if maxFdInner ≤ oldfd ∨ maxFdInner ≤ newfd then some ⟨st, errno eBadf, []⟩
  else if oldfd = newfd then some ⟨st, newfd, []⟩
  else if st.type oldfd = fileNone ∨ st.globalId oldfd = 0 then some ⟨st, errno eBadf, []⟩
  else
    -- a descriptor without a file is closed
    (if st.type newfd = fileNone then st.close newfd else some st).map fun st =>
      ⟨st.copyDescriptor oldfd newfd, newfd, []⟩

/-! ## Reading and writing -/

/-- What `read_file` and `write_file` look up: the partition of a path, and the path on it. The
lookup of the mount point does not return -1. -/
def locate (st : FdState σ) (path : List UInt8) (junk : UInt8) :
    Option (ℕ × Partition σ × List UInt8) := do
  let mountId ← st.vfs.findMountByPath path
  let childPath := childString (st.vfs.getMountDeepLevel mountId) path junk
  let mp ← st.vfs.mountGlobal mountId
  let part ← st.vfs.partitions mp.part
  some (mp.part, part, childPath)

/-- `read_file`: the bytes in the buffer and the result. -/
def readFile (st : FdState σ) (path : List UInt8) (buf start count : ℕ) (junk : UInt8) :
    Option (List UInt8 × ℕ) :=
  if buf = 0 ∨ count = 0 then some ([], errno eInval)
  else do
    let (ptr, part, childPath) ← st.locate path junk
    some (part.driver.read (st.devices ptr) childPath start count, 0)

def writeFile (st : FdState σ) (path : List UInt8) (buf : ℕ) (data : List UInt8) (start : ℕ)
    (junk : UInt8) : Option (FdState σ × ℕ) :=
  if buf = 0 ∨ data.length = 0 then some (st, 0)
  else do
    let (ptr, part, childPath) ← st.locate path junk
    let device := part.driver.write (st.devices ptr) childPath data start
    some ({ st with devices := update st.devices ptr device }, 0)

/-- The ends of `sys_read_file` and `sys_write_file`: both offsets are moved by the result. -/
def advance (st : FdState σ) (fd ptr len : ℕ) : FdState σ :=
  let st := st.setField fd 56 8 (st.offset fd + len)
  { st with
    files := update st.files ptr
      { st.files ptr with offset := u64 ((st.files ptr).offset + len) } }

def sysReadFile (st : FdState σ) (fd buf count : ℕ) (junk : UInt8) : Option (FdEffect σ) :=
  let ptr := st.fdGlobal (st.globalIndex fd)
  if ptr = 0 then none
  else do
    let (bytes, actualReadLen) ← st.readFile (st.files ptr).path buf (st.offset fd) count junk
    some ⟨st.advance fd ptr actualReadLen, actualReadLen, bytes⟩

/-- `sys_write_file`: the descriptor is the first of the table. -/
def sysWriteFile (st : FdState σ) (buf : ℕ) (data : List UInt8) (junk : UInt8) :
    Option (FdEffect σ) :=
  let ptr := st.fdGlobal (st.globalIndex 0)
  if ptr = 0 then none
  else do
    let (st, actualWrittenLen) ← st.writeFile (st.files ptr).path buf data (st.offset 0) junk
    some ⟨st.advance 0 ptr actualWrittenLen, actualWrittenLen, []⟩

/-- The first test of `sys_read`. -/
def Readable (st : FdState σ) (fd : ℕ) : Prop :=
  st.openFlags fd = oRdonly ∨ st.openFlags fd &&& oRdwr ≠ 0

instance Readable.decidable (st : FdState σ) (fd : ℕ) : Decidable (st.Readable fd) :=
  inferInstanceAs (Decidable (_ ∨ _))

def sysRead (st : FdState σ) (fd buf count : ℕ) (junk : UInt8) : Option (FdEffect σ) :=
  if 2 ^ 64 < sizeofFileInner * (fd + 1) then none
  else if ¬st.Readable fd then some ⟨st, errno eBadf, []⟩
  else if st.type fd = fileNone then some ⟨st, 2 ^ 64 - 1, []⟩
  else if st.type fd = fileRegular then st.sysReadFile fd buf count junk
  else none

def sysWrite (st : FdState σ) (fd buf : ℕ) (data : List UInt8) (junk : UInt8) :
    Option (FdEffect σ) :=
  if buf = 0 ∨ data.length = 0 then some ⟨st, 0, []⟩
  else if 2 ^ 64 < sizeofFileInner * (fd + 1) then none
  else if st.openFlags fd &&& oWronly = 0 ∧ st.openFlags fd &&& oRdwr = 0 then
    some ⟨st, errno eBadf, []⟩
  else if st.type fd = fileNone then some ⟨st, 2 ^ 64 - 1, []⟩
  else if st.type fd = fileRegular then st.sysWriteFile buf data junk
  else none

end FdState

/-! ## Calls -/

/-- The calls of a process, with what they find in memory and the verdict of `open_proc_file`. -/
inductive FdCall where
  | sysOpen (behind : FdState.Behind) (accepted : Bool) (path : List UInt8) (flags block : ℕ)
  | sysClose (fd : ℤ)
  | sysRead (fd buf count : ℕ) (junk : UInt8)
  | sysWrite (fd buf : ℕ) (data : List UInt8) (junk : UInt8)
  | dup2 (oldfd newfd : ℕ)

namespace FdState

def step (st : FdState σ) : FdCall → Option (FdEffect σ)
  | .sysOpen behind accepted path flags block => st.sysOpen behind accepted path flags block
  | .sysClose fd => st.sysClose fd
  | .sysRead fd buf count junk => st.sysRead fd buf count junk
  | .sysWrite fd buf data junk => st.sysWrite fd buf data junk
  | .dup2 oldfd newfd => st.dup2 oldfd newfd

def fileOf (st : FdState σ) (n : ℕ) : Option GlobalFile :=
  if st.type n = fileNone ∨ st.fdGlobal (st.globalIndex n) = 0 then none
  else some (st.files (st.fdGlobal (st.globalIndex n)))

/-- A descriptor that can be given out. -/
def Free (st : FdState σ) (n : ℕ) : Prop :=
  ∀ i < sizeofFileInner, st.table (sizeofFileInner * n + i) = 0

def Copy (st st' : FdState σ) (n n' : ℕ) : Prop :=
  ∀ i < sizeofFileInner, st'.table (sizeofFileInner * n' + i) = st.table (sizeofFileInner * n + i)

def Kept (st st' : FdState σ) (n : ℕ) : Prop := st.Copy st' n n ∧ st'.fileOf n = st.fileOf n

/-- What a call is to do, unless it reports an error: opening changes no descriptor in use, closing
frees one, reading moves one offset by what it delivers, writing moves no other one, duplicating
makes one descriptor a copy. -/
def Local (st : FdState σ) : FdCall → FdEffect σ → Prop
  | .sysOpen .., e => ∀ n < maxFdInner, ¬st.Free n → st.Copy e.state n n
  | .sysClose fd, e =>
    (0 ≤ fd → e.state.Free fd.toNat) ∧ ∀ n < maxFdInner, (n : ℤ) ≠ fd → st.Kept e.state n
  | .sysRead fd .., e =>
    (∀ n < maxFdInner, n ≠ fd → e.state.offset n = st.offset n) ∧
      e.state.offset fd = st.offset fd + e.delivered.length
  | .sysWrite fd .., e => ∀ n < maxFdInner, n ≠ fd → e.state.offset n = st.offset n
  | .dup2 oldfd newfd, e =>
    (∀ n < maxFdInner, n ≠ newfd → st.Kept e.state n) ∧
      if e.result = errno eBadf then newfd < maxFdInner → st.Kept e.state newfd
      else st.Copy e.state oldfd newfd

/-- Closing a descriptor spares another one: the bytes erased are zero already, and the pointer
cleared and the file erased, unless it is empty, are others. -/
def Spared (st : FdState σ) (fd n : ℕ) : Prop :=
  (∀ i < sizeofFileInner, Erased fd (sizeofFileInner * n + i) →
    st.table (sizeofFileInner * n + i) = 0) ∧
  ∀ f, st.fileOf n = some f → st.globalIndex n ≠ st.clearedIndex ∧
    (st.fdGlobal (st.globalIndex n) = st.fdGlobal (st.globalIndex 0) → f = default)

/-- `dup2` comes to the copy. -/
def Copies (st : FdState σ) (oldfd newfd : ℕ) : Prop :=
  oldfd < maxFdInner ∧ newfd < maxFdInner ∧ oldfd ≠ newfd ∧ st.type oldfd ≠ fileNone ∧
    st.globalId oldfd ≠ 0

/-- The calls whose mistakes have no effect: closing erases nothing of another descriptor and leaves
nothing of its own; a read has a buffer and no bytes to read; the new descriptor of `dup2` is in
use, or closing it spares the others. -/
def Harmless (st : FdState σ) : FdCall → Prop
  | .sysOpen .. => True
  | .sysClose fd => 0 ≤ fd →
    (∀ i < sizeofFileInner, ¬Erased fd.toNat (sizeofFileInner * fd.toNat + i) →
      st.table (sizeofFileInner * fd.toNat + i) = 0) ∧
    ∀ n < maxFdInner, n ≠ fd.toNat → st.Spared fd.toNat n
  | .sysRead fd buf count junk => st.Readable fd → st.type fd = fileRegular →
    buf ≠ 0 ∧ count ≠ 0 ∧
      ∀ ptr part childPath,
        st.locate (st.files (st.fdGlobal (st.globalIndex fd))).path junk =
          some (ptr, part, childPath) →
        part.driver.read (st.devices ptr) childPath (st.offset fd) count = []
  | .sysWrite .. => True
  | .dup2 oldfd newfd => st.Copies oldfd newfd → st.type newfd = fileNone →
    ∀ n < maxFdInner, n ≠ newfd → st.Spared newfd n

end FdState

/-! ## Fields -/

section Fields

variable {st st' : FdState σ} {fd n off k off' k' x : ℕ}

theorem field_congr (hle : off + k ≤ sizeofFileInner) (h : st.Copy st' n n) :
    st'.field n off k = st.field n off k := by
  refine leNat_congr fun i hi => ?_
  rw [Nat.add_assoc]
  exact h (off + i) (by omega)

theorem FdState.Copy.offset (h : st.Copy st' n n) : st'.offset n = st.offset n :=
  field_congr (by decide) h

theorem FdState.Copy.type (h : st.Copy st' n n) : st'.type n = st.type n :=
  field_congr (by decide) h

theorem FdState.Copy.globalId (h : st.Copy st' n n) : st'.globalId n = st.globalId n :=
  field_congr (by decide) h

theorem copy_refl (st : FdState σ) (n : ℕ) : st.Copy st n n := fun _ _ => rfl

theorem kept_refl (st : FdState σ) (n : ℕ) : st.Kept st n := ⟨copy_refl st n, rfl⟩

theorem copy_setField (hne : n ≠ fd) (hle : off + k ≤ sizeofFileInner) (x : ℕ) :
    st.Copy (st.setField fd off k x) n n := by
  intro i hi
  refine blit_of_not_mem _ _ ?_
  unfold sizeofFileInner at *
  omega

theorem field_setField_self (st : FdState σ) (fd off k x : ℕ) :
    (st.setField fd off k x).field fd off k = x % 256 ^ k := by
  rw [← leNat_leByte]
  refine leNat_congr fun i hi => ?_
  unfold FdState.setField
  dsimp only
  rw [blit_of_mem _ _ (Nat.le_add_right _ i) (by omega), Nat.add_sub_cancel_left]

theorem field_setField_of_disjoint (h : off' + k' ≤ off ∨ off + k ≤ off') :
    (st.setField fd off k x).field fd off' k' = st.field fd off' k' := by
  refine leNat_congr fun i hi => blit_of_not_mem _ _ ?_
  omega

theorem offset_lt (st : FdState σ) (fd : ℕ) : st.offset fd < 2 ^ 64 := by
  unfold FdState.offset FdState.field
  exact leNat_lt 8 _

theorem offset_advance_self (st : FdState σ) (fd ptr len : ℕ) :
    (st.advance fd ptr len).offset fd = (st.offset fd + len) % 2 ^ 64 := by
  exact field_setField_self st fd 56 8 _

theorem offset_advance_of_ne (hne : n ≠ fd) (ptr len : ℕ) :
    (st.advance fd ptr len).offset n = st.offset n := by
  have hcopy : st.Copy (st.setField fd 56 8 (st.offset fd + len)) n n :=
    copy_setField hne (by decide) _
  exact hcopy.offset

theorem offset_advance_zero (st : FdState σ) (n fd ptr : ℕ) :
    (st.advance fd ptr 0).offset n = st.offset n := by
  by_cases hne : n = fd
  · subst hne
    rw [offset_advance_self, Nat.add_zero, Nat.mod_eq_of_lt (offset_lt st n)]
  · exact offset_advance_of_ne hne ptr 0

end Fields

/-! ## Opening -/

section Open

variable {st : FdState σ} {e : FdEffect σ} {path : List UInt8} {flags block n fd : ℕ}
  {b : FdState.Behind} {accepted : Bool}

theorem free_of_getAFreeSlotWithSize (h : st.getAFreeSlotWithSize 0 = some fd) :
    st.Free fd ∧ fd < maxFdInner := by
  rw [FdState.getAFreeSlotWithSize, firstSlot_zero (by decide)] at h
  have hall := find?_some h
  have hlt := mem_range.mp (mem_of_find?_eq_some h)
  refine ⟨fun i hi => ?_, hlt.trans_le (Nat.div_le_self _ _)⟩
  rw [Nat.mul_comm]
  exact eq_of_beq (all_eq_true.mp hall i (mem_range.mpr hi))

/-- A new descriptor is one that was free, and the others stay. -/
theorem openNew_spec {type : FileType} {typeNumber : ℕ}
    (h : st.openNew path flags block type typeNumber = some e) :
    ∃ fd < maxFdInner, st.Free fd ∧ e.state.offset fd = 0 ∧
      e.state.type fd = typeNumber % 256 ^ 4 ∧ ∀ n, n ≠ fd → st.Copy e.state n n := by
  obtain ⟨fd, hfd, h⟩ := bind_eq_some_iff.mp h
  obtain ⟨id, -, h⟩ := bind_eq_some_iff.mp h
  obtain ⟨-, h⟩ := ite_none_right_eq_some.mp h
  cases h
  obtain ⟨hfree, hlt⟩ := free_of_getAFreeSlotWithSize hfd
  refine ⟨fd, hlt, hfree, ?_, field_setField_self _ fd 68 4 _, fun n hne i hi => ?_⟩
  · unfold FdState.offset
    rw [field_setField_of_disjoint (.inl (by decide)),
      field_setField_of_disjoint (.inl (by decide)), field_setField_self]
    rfl
  · -- four stores, each inside the descriptor
    rw [copy_setField hne (by decide) _ i hi, copy_setField hne (by decide) _ i hi,
      copy_setField hne (by decide) _ i hi, copy_setField hne (by decide) _ i hi]

/-- `sys_open` either refuses the path or opens a new descriptor. -/
theorem sysOpen_cases (h : st.sysOpen b accepted path flags block = some e) :
    (path.take 8 ≠ FdState.devTty ∧ (path.take 6 = FdState.procFolder ∧ accepted = false ∨
      FdState.InEmptyFolder path) ∧ e.state = st) ∨
    ¬(path.take 8 ≠ FdState.devTty ∧ (path.take 6 = FdState.procFolder ∧ accepted = false ∨
      FdState.InEmptyFolder path)) ∧
    ∃ type typeNumber, typeNumber % 256 ^ 4 ≠ fileNone ∧
      st.openNew path flags block type typeNumber = some e := by
  rw [FdState.sysOpen] at h
  by_cases htty : path.take 8 = FdState.devTty
  · rw [if_pos htty] at h
    exact .inr ⟨fun hidle => hidle.1 htty, _, _, by decide, h⟩
  rw [if_neg htty] at h
  obtain ⟨special, -, h⟩ := bind_eq_some_iff.mp h
  obtain ⟨-, h⟩ := ite_none_right_eq_some.mp h
  rw [FdState.sysOpenSpecialDirent] at h
  split_ifs at h with hrefused
  · cases h
    exact .inl ⟨htty, hrefused, rfl⟩
  · exact .inr ⟨fun hidle => hrefused hidle.2, _, _, by decide, h⟩

theorem offset_of_free (h : st.Free n) : st.offset n = 0 := by
  have hzero : st.offset n = leNat 8 fun _ => 0 := by
    refine leNat_congr fun i hi => ?_
    rw [Nat.add_assoc]
    exact h (56 + i) (by unfold sizeofFileInner; omega)
  rw [hzero]
  rfl

theorem sysOpen_offset (h : st.sysOpen b accepted path flags block = some e) (n : ℕ) :
    e.state.offset n = st.offset n := by
  obtain ⟨-, -, hstate⟩ | ⟨-, type, typeNumber, -, h⟩ := sysOpen_cases h
  · rw [hstate]
  · obtain ⟨fd, -, hfree, hoffset, -, hcopy⟩ := openNew_spec h
    by_cases hne : n = fd
    · subst hne
      rw [hoffset, offset_of_free hfree]
    · exact (hcopy n hne).offset

theorem sysOpen_copy (h : st.sysOpen b accepted path flags block = some e) (hn : ¬st.Free n) :
    st.Copy e.state n n := by
  obtain ⟨-, -, hstate⟩ | ⟨-, type, typeNumber, -, h⟩ := sysOpen_cases h
  · rw [hstate]
    exact copy_refl st n
  · obtain ⟨fd, -, hfree, -, -, hcopy⟩ := openNew_spec h
    exact hcopy n fun heq => hn (heq ▸ hfree)

end Open

/-! ## Closing -/

section Close

variable {st st' : FdState σ} {e : FdEffect σ} {fd n oldfd newfd : ℕ} {z : ℤ}

theorem table_closed (st : FdState σ) (fd i : ℕ) :
    (st.closed fd).table i = if FdState.Erased fd i then 0 else st.table i := rfl

theorem free_closed_iff : (st.closed fd).Free fd ↔ ∀ i < sizeofFileInner,
    ¬FdState.Erased fd (sizeofFileInner * fd + i) → st.table (sizeofFileInner * fd + i) = 0 := by
  refine forall₂_congr fun i _ => ?_
  rw [table_closed]
  split <;> simp_all

theorem copy_closed_iff : st.Copy (st.closed fd) n n ↔ ∀ i < sizeofFileInner,
    FdState.Erased fd (sizeofFileInner * n + i) → st.table (sizeofFileInner * n + i) = 0 := by
  refine forall₂_congr fun i _ => ?_
  rw [table_closed]
  split <;> simp_all [eq_comm]

theorem fdGlobal_closed (st : FdState σ) (fd j : ℕ) :
    (st.closed fd).fdGlobal j = if j = st.clearedIndex then 0 else st.fdGlobal j :=
  update_apply st.fdGlobal st.clearedIndex 0 j

theorem files_closed (st : FdState σ) (fd p : ℕ) : (st.closed fd).files p =
    if p = st.fdGlobal (st.globalIndex 0) then default else st.files p :=
  update_apply st.files (st.fdGlobal (st.globalIndex 0)) default p

theorem fileOf_closed_iff (hcopy : st.Copy (st.closed fd) n n) :
    (st.closed fd).fileOf n = st.fileOf n ↔
      ∀ f, st.fileOf n = some f → st.globalIndex n ≠ st.clearedIndex ∧
        (st.fdGlobal (st.globalIndex n) = st.fdGlobal (st.globalIndex 0) → f = default) := by
  have hindex : (st.closed fd).globalIndex n = st.globalIndex n := by
    unfold FdState.globalIndex
    rw [hcopy.globalId]
  unfold FdState.fileOf
  rw [hcopy.type, hindex, fdGlobal_closed, files_closed]
  by_cases htype : st.type n = fileNone
  · simp [htype]
  by_cases hnull : st.fdGlobal (st.globalIndex n) = 0
  · simp [hnull]
  by_cases hcleared : st.globalIndex n = st.clearedIndex
  · simp [htype, hcleared]
  · simp only [htype, hnull, or_false, if_false, some.injEq, forall_eq',
      ne_eq, hcleared, not_false_eq_true, true_and]
    by_cases hsame : st.fdGlobal (st.globalIndex n) = st.fdGlobal (st.globalIndex 0)
    · simp [hsame, eq_comm]
    · simp [hsame]

theorem kept_closed_iff : st.Kept (st.closed fd) n ↔ st.Spared fd n := by
  constructor
  · rintro ⟨hcopy, hfile⟩
    exact ⟨copy_closed_iff.mp hcopy, (fileOf_closed_iff hcopy).mp hfile⟩
  · rintro ⟨hbytes, hfile⟩
    have hcopy := copy_closed_iff.mpr hbytes
    exact ⟨hcopy, (fileOf_closed_iff hcopy).mpr hfile⟩

theorem close_eq_some (h : st.close fd = some st') : st' = st.closed fd :=
  (some.inj (ite_none_left_eq_some.mp h).2).symm

theorem sysClose_local_iff (h : st.sysClose z = some e) :
    st.Local (.sysClose z) e ↔ st.Harmless (.sysClose z) := by
  unfold FdState.sysClose at h
  by_cases hneg : z < 0
  · rw [if_pos hneg] at h
    cases h
    constructor
    · intro _ hz
      omega
    · intro _
      exact ⟨by omega, fun n _ _ => kept_refl st n⟩
  · rw [if_neg hneg] at h
    obtain ⟨-, h⟩ := ite_none_left_eq_some.mp h
    obtain ⟨st', hclose, rfl⟩ := map_eq_some_iff.mp h
    obtain rfl := close_eq_some hclose
    obtain ⟨fd, rfl⟩ := Int.eq_ofNat_of_zero_le (Int.not_lt.mp hneg)
    simp only [FdState.Local, FdState.Harmless, Int.toNat_natCast, free_closed_iff, ne_eq,
      Int.natCast_inj, kept_closed_iff, Int.natCast_nonneg, true_imp_iff]

/-! ## Duplicating -/

theorem table_copyDescriptor (st : FdState σ) (oldfd newfd : ℕ) :
    (st.copyDescriptor oldfd newfd).table =
      blit st.table (sizeofFileInner * newfd) sizeofFileInner fun i =>
        st.table (sizeofFileInner * oldfd + i) := rfl

theorem copy_copyDescriptor_of_ne (st : FdState σ) (oldfd : ℕ) (hne : n ≠ newfd) :
    st.Copy (st.copyDescriptor oldfd newfd) n n := by
  intro i hi
  rw [table_copyDescriptor, blit_of_not_mem]
  unfold sizeofFileInner at *
  omega

theorem copy_copyDescriptor (st : FdState σ) (oldfd newfd : ℕ) :
    st.Copy (st.copyDescriptor oldfd newfd) oldfd newfd := by
  intro i hi
  rw [table_copyDescriptor, blit_of_mem _ _ (Nat.le_add_right _ i) (by omega),
    Nat.add_sub_cancel_left]

theorem FdState.Copy.trans {st1 st2 : FdState σ} {n1 n2 : ℕ} (h : st.Copy st1 n n1)
    (h' : st1.Copy st2 n1 n2) : st.Copy st2 n n2 :=
  fun i hi => (h' i hi).trans (h i hi)

theorem kept_copyDescriptor (st : FdState σ) (oldfd : ℕ) (hne : n ≠ newfd) :
    st.Kept (st.copyDescriptor oldfd newfd) n := by
  have hcopy := copy_copyDescriptor_of_ne st oldfd hne
  refine ⟨hcopy, ?_⟩
  unfold FdState.fileOf FdState.globalIndex
  rw [hcopy.type, hcopy.globalId]
  rfl

theorem FdState.Kept.trans {st1 st2 : FdState σ} (h : st.Kept st1 n) (h' : st1.Kept st2 n) :
    st.Kept st2 n :=
  ⟨h.1.trans h'.1, h'.2.trans h.2⟩

theorem FdState.Kept.symm (h : st.Kept st' n) : st'.Kept st n :=
  ⟨fun i hi => (h.1 i hi).symm, h.2.symm⟩

theorem not_copies (h : (maxFdInner ≤ oldfd ∨ maxFdInner ≤ newfd) ∨ oldfd = newfd ∨
    st.type oldfd = fileNone ∨ st.globalId oldfd = 0) : ¬st.Copies oldfd newfd := by
  rintro ⟨hold, hnew, hne, htype, hid⟩
  rcases h with (hle | hle) | h | h | h
  · omega
  · omega
  · exact hne h
  · exact htype h
  · exact hid h

/-- The two ways of `dup2`: nothing is done, or the descriptor is copied. -/
theorem dup2_cases (h : st.dup2 oldfd newfd = some e) :
    (¬st.Copies oldfd newfd ∧ e.state = st ∧
      (e.result = errno eBadf ∨ oldfd = newfd ∧ newfd < maxFdInner ∧ e.result = newfd)) ∨
    st.Copies oldfd newfd ∧ e.result = newfd ∧
      e.state = (if st.type newfd = fileNone then st.closed newfd else st).copyDescriptor
        oldfd newfd := by
  unfold FdState.dup2 at h
  split at h
  case isTrue hrange =>
    cases h
    exact .inl ⟨not_copies (.inl hrange), rfl, .inl rfl⟩
  case isFalse hrange =>
    split at h
    case isTrue heq =>
      cases h
      exact .inl ⟨not_copies (.inr (.inl heq)), rfl, .inr ⟨heq, by omega, rfl⟩⟩
    case isFalse hne =>
      split at h
      case isTrue hfile =>
        cases h
        exact .inl ⟨not_copies (.inr (.inr hfile)), rfl, .inl rfl⟩
      case isFalse hfile =>
        obtain ⟨st1, hclose, rfl⟩ := map_eq_some_iff.mp h
        refine .inr ⟨⟨by omega, by omega, hne, fun ht => hfile (.inl ht),
          fun hid => hfile (.inr hid)⟩, rfl, ?_⟩
        split at hclose
        case isTrue htype => rw [if_pos htype, close_eq_some hclose]
        case isFalse htype => rw [if_neg htype, some.inj hclose]

theorem result_ne_eBadf (h : newfd < maxFdInner) : newfd ≠ errno eBadf := by
  unfold maxFdInner at h
  unfold errno eBadf
  omega

theorem dup2_local_iff (h : st.dup2 oldfd newfd = some e) :
    st.Local (.dup2 oldfd newfd) e ↔ st.Harmless (.dup2 oldfd newfd) := by
  obtain ⟨hcopies, hstate, hresult⟩ | ⟨hcopies, hresult, hstate⟩ := dup2_cases h
  · refine iff_of_true ⟨fun n _ _ => ?_, ?_⟩ fun hc => absurd hc hcopies
    · rw [hstate]
      exact kept_refl st n
    · rcases hresult with hresult | ⟨rfl, hlt, hresult⟩
      · rw [if_pos hresult, hstate]
        exact fun _ => kept_refl st newfd
      · rw [if_neg (hresult.trans_ne (result_ne_eBadf hlt)), hstate]
        exact copy_refl st oldfd
  · obtain ⟨hold, hnew, hne, -, -⟩ := id hcopies
    have hok : e.result ≠ errno eBadf := hresult.trans_ne (result_ne_eBadf hnew)
    simp only [FdState.Local, FdState.Harmless]
    rw [if_neg hok, hstate]
    by_cases htype : st.type newfd = fileNone
    · -- the new descriptor is closed first, and the old one is copied as the closing left it
      rw [if_pos htype]
      constructor
      · rintro ⟨hkept, -⟩ - - n hn hn'
        exact kept_closed_iff.mp ((hkept n hn hn').trans (kept_copyDescriptor _ oldfd hn').symm)
      · intro hspared
        have hkept : ∀ n < maxFdInner, n ≠ newfd → st.Kept (st.closed newfd) n :=
          fun n hn hn' => kept_closed_iff.mpr (hspared hcopies htype n hn hn')
        exact ⟨fun n hn hn' => (hkept n hn hn').trans (kept_copyDescriptor _ oldfd hn'),
          (hkept oldfd hold hne).1.trans (copy_copyDescriptor _ oldfd newfd)⟩
    · rw [if_neg htype]
      exact iff_of_true ⟨fun n _ hn' => kept_copyDescriptor st oldfd hn',
        copy_copyDescriptor st oldfd newfd⟩ fun _ htype' => absurd htype' htype

end Close

/-! ## Reading and writing -/

section ReadWrite

variable {st st' : FdState σ} {e : FdEffect σ} {fd buf count start r : ℕ} {junk : UInt8}
  {data path : List UInt8}

theorem offset_advance_error (st : FdState σ) (fd ptr : ℕ) :
    (st.advance fd ptr (errno eInval)).offset fd ≠ st.offset fd := by
  rw [offset_advance_self]
  unfold errno eInval
  omega

theorem sysReadFile_local_iff (h : st.sysReadFile fd buf count junk = some e)
    (hread : st.Readable fd) (htype : st.type fd = fileRegular) :
    st.Local (.sysRead fd buf count junk) e ↔ st.Harmless (.sysRead fd buf count junk) := by
  obtain ⟨-, h⟩ := ite_none_left_eq_some.mp h
  obtain ⟨⟨bytes, len⟩, hbytes, h⟩ := bind_eq_some_iff.mp h
  cases h
  simp only [FdState.Local, FdState.Harmless, hread, htype, true_imp_iff]
  unfold FdState.readFile at hbytes
  split at hbytes
  case isTrue hbad =>
    cases hbytes
    refine iff_of_false (fun hlocal => ?_) fun hharmless => ?_
    · exact offset_advance_error st fd _ (hlocal.2.trans (Nat.add_zero _))
    · exact hbad.elim hharmless.1 hharmless.2.1
  case isFalse hgood =>
    obtain ⟨⟨ptr, part, childPath⟩, hlocate, hbytes⟩ := bind_eq_some_iff.mp hbytes
    cases hbytes
    simp only [offset_advance_zero, hlocate, some.injEq, Prod.mk.injEq]
    constructor
    · rintro ⟨-, hown⟩
      refine ⟨fun hbuf => hgood (.inl hbuf), fun hcount => hgood (.inr hcount), ?_⟩
      rintro _ _ _ ⟨rfl, rfl, rfl⟩
      exact length_eq_zero_iff.mp (Nat.left_eq_add.mp hown)
    · rintro ⟨-, -, hnone⟩
      simp [hnone ptr part childPath ⟨rfl, rfl, rfl⟩]

theorem sysRead_local_iff (h : st.sysRead fd buf count junk = some e) :
    st.Local (.sysRead fd buf count junk) e ↔ st.Harmless (.sysRead fd buf count junk) := by
  obtain ⟨-, h⟩ := ite_none_left_eq_some.mp h
  split at h
  case isTrue hread =>
    cases h
    exact iff_of_true ⟨fun _ _ _ => rfl, (Nat.add_zero _).symm⟩ fun hread' => absurd hread' hread
  case isFalse hread =>
    split at h
    case isTrue htype =>
      cases h
      refine iff_of_true ⟨fun _ _ _ => rfl, (Nat.add_zero _).symm⟩ fun _ htype' => ?_
      cases htype.symm.trans htype'
    case isFalse =>
      obtain ⟨htype, h⟩ := ite_none_right_eq_some.mp h
      exact sysReadFile_local_iff h (not_not.mp hread) htype

theorem writeFile_spec (h : st.writeFile path buf data start junk = some (st', r)) :
    st'.table = st.table ∧ r = 0 := by
  unfold FdState.writeFile at h
  split at h
  · cases h
    exact ⟨rfl, rfl⟩
  · obtain ⟨⟨ptr, part, childPath⟩, -, h⟩ := bind_eq_some_iff.mp h
    cases h
    exact ⟨rfl, rfl⟩

theorem offset_eq_of_table (h : st'.table = st.table) (n : ℕ) : st'.offset n = st.offset n := by
  unfold FdState.offset FdState.field
  rw [h]

theorem sysWrite_offset (h : st.sysWrite fd buf data junk = some e) (n : ℕ) :
    e.state.offset n = st.offset n := by
  unfold FdState.sysWrite at h
  split at h
  · cases h
    rfl
  · obtain ⟨-, h⟩ := ite_none_left_eq_some.mp h
    split at h
    · cases h
      rfl
    · split at h
      · cases h
        rfl
      · obtain ⟨-, h⟩ := ite_none_right_eq_some.mp h
        obtain ⟨-, h⟩ := ite_none_left_eq_some.mp h
        obtain ⟨⟨st', r⟩, hwrite, h⟩ := bind_eq_some_iff.mp h
        cases h
        obtain ⟨htable, rfl⟩ := writeFile_spec hwrite
        exact (offset_advance_zero st' n 0 _).trans (offset_eq_of_table htable n)

end ReadWrite

/-! ## Every call -/

section Calls

variable {st : FdState σ} {e : FdEffect σ} {c : FdCall}

theorem local_iff_harmless (h : st.step c = some e) : st.Local c e ↔ st.Harmless c := by
  cases c with
  | sysOpen b accepted path flags block =>
    exact iff_of_true (fun _ _ hn => sysOpen_copy h hn) trivial
  | sysClose fd => exact sysClose_local_iff h
  | sysRead fd buf count junk => exact sysRead_local_iff h
  | sysWrite fd buf data junk => exact iff_of_true (fun n _ _ => sysWrite_offset h n) trivial
  | dup2 oldfd newfd => exact dup2_local_iff h

end Calls

/-! ## The reads of a run -/

/-- A read: the descriptor, its offset when the read starts, and the bytes. -/
structure FdRead where
  fd : ℕ
  start : ℕ
  bytes : List UInt8
  deriving DecidableEq, Repr

/-- A state, and the reads so far. -/
structure FdTrace (σ : Type) where
  state : FdState σ
  reads : List FdRead

def FdCall.reads (c : FdCall) (st : FdState σ) (e : FdEffect σ) : List FdRead :=
  match c with
  | .sysRead fd .. => [⟨fd, st.offset fd, e.delivered⟩]
  | _ => []

def FdTrace.step (tr : FdTrace σ) (c : FdCall) : Option (FdTrace σ) :=
  (tr.state.step c).map fun e => ⟨e.state, tr.reads ++ c.reads tr.state e⟩

def FdCall.Replaces : FdCall → ℕ → Prop
  | .sysClose fd, n => fd = n
  | .dup2 _ newfd, n => newfd = n
  | _, _ => False

/-- Each read starts where the one before it ended, the first at `start` and one more at `stop`. -/
def Consecutive (start : ℕ) : List FdRead → ℕ → Prop
  | [], stop => stop = start
  | r :: rest, stop => r.start = start ∧ Consecutive (start + r.bytes.length) rest stop

section Runs

variable {st : FdState σ} {tr : FdTrace σ} {e : FdEffect σ} {c : FdCall} {n : ℕ}

theorem Consecutive.snoc {start stop : ℕ} {reads : List FdRead} {r : FdRead}
    (h : Consecutive start reads stop) (hr : r.start = stop) :
    Consecutive start (reads ++ [r]) (stop + r.bytes.length) := by
  induction reads generalizing start with
  | nil =>
    obtain rfl : stop = start := h
    exact ⟨hr, rfl⟩
  | cons r' rest ih => exact ⟨h.1, ih h.2⟩

def readsOf (n : ℕ) (reads : List FdRead) : List FdRead := reads.filter (·.fd == n)

theorem offset_of_local (hn : n < maxFdInner) (h : st.step c = some e) (hlocal : st.Local c e)
    (hreplaces : ¬c.Replaces n) (hread : ∀ fd buf count junk, c ≠ .sysRead fd buf count junk) :
    e.state.offset n = st.offset n := by
  cases c with
  | sysOpen b accepted path flags block => exact sysOpen_offset h n
  | sysClose fd => exact (hlocal.2 n hn fun heq => hreplaces heq.symm).1.offset
  | sysRead fd buf count junk => exact absurd rfl (hread fd buf count junk)
  | sysWrite fd buf data junk => exact sysWrite_offset h n
  | dup2 oldfd newfd => exact (hlocal.1 n hn fun heq => hreplaces heq.symm).1.offset

/-- One more call. -/
theorem Consecutive.step {start : ℕ} (hn : n < maxFdInner)
    (h : Consecutive start (readsOf n tr.reads) (tr.state.offset n))
    (hstep : tr.state.step c = some e) (hlocal : tr.state.Local c e)
    (hreplaces : ¬c.Replaces n) :
    Consecutive start (readsOf n (tr.reads ++ c.reads tr.state e)) (e.state.offset n) := by
  unfold readsOf at *
  rw [filter_append]
  by_cases hread : ∃ fd buf count junk, c = .sysRead fd buf count junk
  · obtain ⟨fd, buf, count, junk, rfl⟩ := hread
    by_cases heq : n = fd
    · subst heq
      have hlog : (FdCall.reads (.sysRead n buf count junk) tr.state e).filter (·.fd == n) =
          [⟨n, tr.state.offset n, e.delivered⟩] := by simp [FdCall.reads]
      rw [hlog, hlocal.2]
      exact h.snoc rfl
    · have hlog : (FdCall.reads (.sysRead fd buf count junk) tr.state e).filter (·.fd == n) =
          [] := by simp [FdCall.reads, Ne.symm heq]
      rw [hlog, append_nil, hlocal.1 n hn heq]
      exact h
  · have hlog : c.reads tr.state e = [] := by
      cases c with
      | sysRead fd buf count junk => exact absurd ⟨fd, buf, count, junk, rfl⟩ hread
      | _ => rfl
    rw [hlog, filter_nil, append_nil, offset_of_local hn hstep hlocal hreplaces
      fun fd buf count junk heq => hread ⟨fd, buf, count, junk, heq⟩]
    exact h

theorem Consecutive.of_run {calls : List FdCall} (hn : n < maxFdInner)
    (hrun : Run FdTrace.step (fun tr c => tr.state.Harmless c ∧ ¬c.Replaces n) ⟨st, []⟩ calls tr) :
    Consecutive (st.offset n) (readsOf n tr.reads) (tr.state.offset n) := by
  refine hrun.invariant
    (fun tr : FdTrace σ => Consecutive (st.offset n) (readsOf n tr.reads) (tr.state.offset n))
    ?_ rfl
  rintro tr c tr' ih ⟨hharmless, hreplaces⟩ hstep
  obtain ⟨e, he, rfl⟩ := map_eq_some_iff.mp hstep
  exact ih.step hn he ((local_iff_harmless he).mpr hharmless) hreplaces

/-- **A call touches what it names** exactly if it is harmless, and in a run of harmless calls the
reads of a descriptor are consecutive. -/
theorem touchesOnlyNamed_iff_harmless (st : FdState σ) :
    (∀ c e, st.step c = some e → (st.Local c e ↔ st.Harmless c)) ∧
    ∀ n < maxFdInner, ∀ calls tr,
      Run FdTrace.step (fun tr c => tr.state.Harmless c ∧ ¬c.Replaces n) ⟨st, []⟩ calls tr →
        Consecutive (st.offset n) (readsOf n tr.reads) (tr.state.offset n) :=
  ⟨fun _ _ => local_iff_harmless, fun _ hn _ _ hrun => Consecutive.of_run hn hrun⟩

end Runs

/-- Descriptors 0 and 1 are open for reading and writing, with the files `/a` and `/b` of an empty
partition. -/
def twoOpen : FdState Unit where
  vfs := { onePartition with
    mountGlobal := fun j => if j = 0 then some ⟨[0x61], [slash], 0, 4096⟩ else none }
  devices _ := ()
  table i :=
    if i = 0 then 1 else if i = 80 then 2
    else if i = 64 ∨ i = 144 then 2 else if i = 68 ∨ i = 148 then 1 else 0
  fdGlobal i := if i = 1 then 8192 else if i = 2 then 12288 else 0
  files ptr :=
    if ptr = 8192 then ⟨1, [slash, 0x61], 0, 2, .regular⟩
    else if ptr = 12288 then ⟨2, [slash, 0x62], 0, 2, .regular⟩ else default

/-- Descriptor 1 is read at its end and then duplicated over descriptor 0. -/
theorem touchesOnlyNamed_iff_harmless_twoOpen :
    (∃ e, twoOpen.step (.dup2 1 0) = some e ∧ twoOpen.Local (.dup2 1 0) e) ∧
    ∃ tr, Run FdTrace.step (fun tr c => tr.state.Harmless c ∧ ¬c.Replaces 1) ⟨twoOpen, []⟩
        [.sysRead 1 8 16 0] tr ∧
      Consecutive (twoOpen.offset 1) (readsOf 1 tr.reads) (tr.state.offset 1) := by
  have hdup : twoOpen.Harmless (.dup2 1 0) := by
    intro _ htype
    exact absurd htype (by decide)
  have hread : twoOpen.Harmless (.sysRead 1 8 16 0) := by
    intro _ _
    refine ⟨by decide, by decide, fun ptr part childPath hlocate => ?_⟩
    have heval : (twoOpen.locate [slash, 0x62] 0).map (fun x => x.2.1.driver.read () x.2.2 0 16) =
        some [] := by decide +kernel
    have hpath : (twoOpen.files (twoOpen.fdGlobal (twoOpen.globalIndex 1))).path =
      [slash, 0x62] := by
      decide
    rw [hpath] at hlocate
    rw [hlocate] at heval
    exact some.inj heval
  obtain ⟨e, he⟩ := isSome_iff_exists.mp
    (show (twoOpen.step (.dup2 1 0)).isSome by decide)
  obtain ⟨tr, htr⟩ := isSome_iff_exists.mp
    (show (FdTrace.step ⟨twoOpen, []⟩ (.sysRead 1 8 16 0)).isSome by decide +kernel)
  have hrun : Run FdTrace.step (fun tr c => tr.state.Harmless c ∧ ¬c.Replaces 1) ⟨twoOpen, []⟩
      [.sysRead 1 8 16 0] tr := .snoc (.nil _) ⟨hread, id⟩ htr
  exact ⟨⟨e, he, ((touchesOnlyNamed_iff_harmless twoOpen).1 _ e he).mpr hdup⟩, tr, hrun,
    (touchesOnlyNamed_iff_harmless twoOpen).2 1 (by decide) _ tr hrun⟩

/-- Closing descriptor 1 frees descriptor 0 too, and erases the file of descriptor 0. -/
theorem close_frees_other : twoOpen.type 0 = fileRegular ∧ twoOpen.type 1 = fileRegular ∧
    ∃ e, twoOpen.step (.sysClose 1) = some e ∧ e.state.type 0 = fileNone ∧
      (e.state.files 8192).path = [] ∧ ¬twoOpen.Local (.sysClose 1) e := by
  refine ⟨by decide, by decide, exists_of_eval (Q := fun e => e.state.type 0 = fileNone ∧
    e.state.table 0 = 0 ∧ (e.state.files 8192).path = []) (by decide) ?_⟩
  rintro e - ⟨htype, hbyte, hpath⟩
  refine ⟨htype, hpath, fun hlocal => ?_⟩
  have hkept := (hlocal.2 0 (by decide) (by decide)).1 0 (by decide)
  cases hbyte.symm.trans hkept

end CarrotOS
