import CarrotOS.Fs.Lookup

/-!
# Changing a volume (`core/filesytem/fat32.h`)

The routines that create, write, truncate, remove and rename. Five of them walk the clusters of the
parent directory in the same way, change the first entry with a given attribute and name, and write
the cluster back. A routine whose search does not end has no result.
-/

namespace CarrotOS.Fat32

open Word Bytes

/-- What the environment decides in a call: the number of turns after which a search counts as
endless, and the contents of uninitialised variables. -/
structure FatEnv where
  fuel : ℕ
  junk : ℕ → ℕ → Buf

/-- `-e` as the result of a function of type `int`. -/
def eNoent : ℤ := -2

@[inherit_doc eNoent]
def eIsdir : ℤ := -21

@[inherit_doc eNoent]
def eInvalArg : ℤ := -22

section Update

variable (part : ℕ)

/-! ## Walking a directory -/

def setSlot (b : Buf) (i : ℕ) (e : Buf) : Buf :=
  blit b (32 * i) 32 e

/-- The scan for an entry with the given attribute and name. -/
def scanEntry (attr : UInt8) (name : List UInt8) (b : Buf) : Scan :=
  scan (fun i => slotFirst b i == 0) (fun i => slotAttr b i == attr && slotName b i == name)

/-- How the walk of a directory ended: at a cluster number below 2, at an unused slot, or with a
changed entry. -/
inductive Walk where
  | fellOff
  | stopped
  | edited
  deriving DecidableEq, Repr

/-- The loop `while (true)` over the clusters of a directory: the first entry with the given
attribute and name is replaced by `edit` of it. -/
def editEntry (attr : UInt8) (name : List UInt8) (edit : Buf → Buf) (d : Disk) :
    ℕ → ℕ → Buf → Option (Disk × Walk)
  | 0, _, _ => none
  | fuel + 1, cluster, buf =>
    if cluster < 2 then some (d, .fellOff)
    else
      let buf := (readCluster part d cluster buf).1
      match scanEntry attr name buf with
      | .stopped => some (d, .stopped)
      | .hit i =>
        some ((writeCluster part d cluster (setSlot buf i (edit (slot buf i)))).1, .edited)
      | .exhausted => editEntry attr name edit d fuel (getNextCluster part d cluster) buf

def withCluster (cluster : ℕ) (e : Buf) : Buf :=
  blit (blit e 26 2 (leByte cluster)) 20 2 (leByte (cluster / 2 ^ 16))

def withSize (size : ℕ) (e : Buf) : Buf :=
  blit e 28 4 (leByte size)

def erased : Buf := fun _ => 0

def setFileFirstCluster (env : FatEnv) (d : Disk) (path : List UInt8) (cluster : ℕ) : Option Disk :=
  (fat32Stat part env.fuel (env.junk 0) d path).bind fun stat =>
    if stat.type = .notFound then some d
    else if stat.type = .directory then some d
    else
      (editEntry part 0x20 (formatName83 stat.name) (withCluster cluster) d env.fuel
        stat.parentClusterId (env.junk 1 0)).map Prod.fst

def setFileSize (env : FatEnv) (d : Disk) (path : List UInt8) (newSize : ℕ) : Option Disk :=
  (fat32Stat part env.fuel (env.junk 0) d path).bind fun stat =>
    (editEntry part 0x20 (formatName83 stat.name) (withSize newSize) d env.fuel
      stat.parentClusterId (env.junk 1 0)).map Prod.fst

/-! ## Writing -/

def expandFile (d : Disk) (cluster : ℕ) : Disk × ℕ :=
  let newCluster := findBlankCluster part d
  if newCluster < 2 then (d, 0)
  else
    (fat32SetFatEntry part (fat32SetFatEntry part d cluster newCluster) newCluster fat32Eoc,
      newCluster)

/-- The loop of `fat32_write_file_bytes`: the disk, the bytes written, and an error that ends the
function. It ends, since each turn writes at least one byte; `fuel` is the number of bytes. -/
def writeLoop (buf : Buf) : ℕ → Disk → ℕ → ℕ → ℕ → ℕ → Disk × ℕ × Option ℤ
  | 0, d, _, _, _, totalWritten => (d, totalWritten, none)
  | fuel + 1, d, size, cluster, offsetInCluster, totalWritten =>
    if 0 < size ∧ cluster < 0x0FFFFFF8 then
      let r := readCluster part d cluster fun _ => 0
      if r.2 ≠ 0 then (d, totalWritten, some (-4))
      else
        let toCopy := min (clusterSize - offsetInCluster) size
        let tmp := blit r.1 offsetInCluster toCopy fun k => buf (totalWritten + k)
        let w := writeCluster part d cluster tmp
        if w.2 ≠ 0 then (w.1, totalWritten, some (-5))
        else
          let totalWritten := totalWritten + toCopy
          let size := size - toCopy
          if 0 < size then
            let next := getNextCluster part w.1 cluster
            -- `get_next_cluster` never returns a number from `FAT32_EOC` on
            if fat32Eoc ≤ next then
              let x := expandFile part w.1 next
              if x.2 = 0 then (x.1, totalWritten, some (-7))
              else writeLoop buf fuel x.1 size x.2 0 totalWritten
            else writeLoop buf fuel w.1 size next 0 totalWritten
          else writeLoop buf fuel w.1 size cluster 0 totalWritten
    else (d, totalWritten, none)

/-- `fat32_write_file_bytes` from the point where the first cluster is known. -/
def writeAt (env : FatEnv) (d : Disk) (path : List UInt8) (buf : Buf) (offset size cluster : ℕ) :
    Option (Disk × ℤ) :=
  let fileSize := getFileSize part (env.junk 2 0) d path
  if fileSize < offset then some (d, -2)
  else
    match skipClusters part d (offset / clusterSize) cluster with
    | none => some (d, -3)
    | some cluster =>
      match writeLoop part buf size d size cluster (offset % clusterSize) 0 with
      | (d, _, some error) => some (d, error)
      | (d, totalWritten, none) =>
        if fileSize < u64 (offset + totalWritten) then
          (setFileSize part { env with junk := fun n => env.junk (n + 3) } d path
            (u32 (offset + totalWritten))).map fun d => (d, 0)
        else some (d, 0)

def fat32WriteFileBytes (env : FatEnv) (d : Disk) (path : List UInt8) (buf : Buf)
    (offset size : ℕ) : Option (Disk × ℤ) :=
  let cluster := findClusterFromPath part (env.junk 0) d path
  let env' := { env with junk := fun n => env.junk (n + 1) }
  if cluster = 0 then
    let cluster := findBlankCluster part d
    if cluster < 2 then some (d, -6)
    else
      (setFileFirstCluster part env' (fat32SetFatEntry part d cluster fat32Eoc) path cluster).bind
        fun d => writeAt part { env with junk := fun n => env.junk (n + 3) } d path buf offset size
          cluster
  else writeAt part env' d path buf offset size cluster

/-! ## Truncating and removing -/

/-- The loop of `fat32_truncate_file` that frees a chain. -/
def freeChain : ℕ → Disk → ℕ → Option Disk
  | 0, _, _ => none
  | fuel + 1, d, cluster =>
    if 2 ≤ cluster ∧ cluster < fat32Eoc then
      let next := fat32GetFatEntry part d cluster
      freeChain fuel (fat32SetFatEntry part d cluster 0) next
    else some d

def fat32TruncateFile (env : FatEnv) (d : Disk) (path : List UInt8) : Option (Disk × ℤ) :=
  if path.head? ≠ some slash then some (d, eInvalArg)
  else if path = [slash] then some (d, eIsdir)
  else
    (fat32Stat part env.fuel (env.junk 0) d path).bind fun stat =>
      if stat.type = .notFound then some (d, eNoent)
      else if stat.type = .directory then some (d, eIsdir)
      else
        let thisClusterId := findClusterFromPath part (env.junk 1) d path
        (freeChain part env.fuel d thisClusterId).bind fun d =>
          (editEntry part 0x20 (formatName83 stat.name) (fun e => withSize 0 (withCluster 0 e)) d
            env.fuel stat.parentClusterId (env.junk 2 0)).map fun r =>
              (r.1, if r.2 = .stopped then -1 else 0)

/-- The common body of `fat32_unlink_file_entry` and `fat32_rmdir_entry`: the error for `/`, the
type that is refused with its error, and the attribute of the entry that is erased. -/
def removeEntry (rootError : ℤ) (refused : PathType) (refusedError : ℤ) (attr : UInt8)
    (env : FatEnv) (d : Disk) (path : List UInt8) : Option (Disk × ℤ) :=
  if path.head? ≠ some slash then some (d, eInvalArg)
  else if path = [slash] then some (d, rootError)
  else
    (fat32Stat part env.fuel (env.junk 0) d path).bind fun stat =>
      if stat.type = .notFound then some (d, eNoent)
      else if stat.type = refused then some (d, refusedError)
      else
        (editEntry part attr (formatName83 stat.name) (fun _ => erased) d env.fuel
          stat.parentClusterId (env.junk 1 0)).map fun r => (r.1, if r.2 = .stopped then -1 else 0)

def fat32UnlinkFileEntry (env : FatEnv) (d : Disk) (path : List UInt8) : Option (Disk × ℤ) :=
  removeEntry part eIsdir .directory eIsdir 0x20 env d path

/-- `fat32_rmdir_entry`, whose lookup of the removed directory has no effect. -/
def fat32RmdirEntry (env : FatEnv) (d : Disk) (path : List UInt8) : Option (Disk × ℤ) :=
  removeEntry part eInvalArg .file eInvalArg 0x10 env d path

/-! ## Creating -/

/-- An entry with the dates and times that the code puts into every new entry. -/
def newEntry (name : List UInt8) (attr : UInt8) (cluster : ℕ) : Buf := fun k =>
  (name.take 11 ++ [attr, 0, 0x44, 0x1a, 0x9c, 0x13, 0x5b, 0x13, 0x5b,
    leByte (cluster / 2 ^ 16) 0, leByte (cluster / 2 ^ 16) 1, 0x33, 0x9c, 0x13, 0x5b,
    leByte cluster 0, leByte cluster 1, 0, 0, 0, 0]).getD k 0

/-- `create_dirent_entry` on the slot `i` of a buffer, with the cluster it takes. -/
def createDirentEntry (d : Disk) (b : Buf) (i : ℕ) (type : UInt8) (direntName : List UInt8) :
    Buf × ℕ :=
  let newBlankClusterId := findBlankCluster part d
  (setSlot b i (newEntry direntName type newBlankClusterId), newBlankClusterId)

def scanFree (b : Buf) : Scan :=
  scan (fun _ => false) (fun i => slotFirst b i == 0xE5 || slotFirst b i == 0)

/-- Outcome of the search for a free slot: its place and the buffer with its cluster, or the last
cluster that was visited. -/
inductive FreeSlot where
  | found (cluster i : ℕ) (buf : Buf)
  | absent (last : ℕ)

/-- The loop of `fat32_create` and of `fat32_rename` over the clusters of a directory for a free
slot. -/
def findFreeSlot (d : Disk) : ℕ → ℕ → ℕ → Buf → Option FreeSlot
  | 0, _, _, _ => none
  | fuel + 1, last, cluster, buf =>
    if cluster < 2 then some (.absent last)
    else
      let buf := (readCluster part d cluster buf).1
      match scanFree buf with
      | .hit i => some (.found cluster i buf)
      | _ => findFreeSlot d fuel cluster (getNextCluster part d cluster) buf

/-- The first cluster of a new directory. -/
def dotEntries (cluster parent : ℕ) : Buf :=
  setSlot (setSlot (fun _ => 0) 0 (newEntry (dot :: List.replicate 10 space) 0x10 cluster)) 1
    (newEntry (dot :: dot :: List.replicate 9 space) 0x10 parent)

/-- The new entry of `fat32_create`, in a free slot or in a further cluster of the directory: the
disk and the first cluster of the entry. -/
def placeNew (d : Disk) (type : UInt8) (direntName : List UInt8) : FreeSlot → Disk × ℕ
  | .found cluster i buf =>
    let e := createDirentEntry part d buf i type direntName
    ((writeCluster part d cluster e.1).1, e.2)
  | .absent last =>
    let blankBlockId := findBlankCluster part d
    let d := extendDirentCluster part d last blankBlockId
    let e := createDirentEntry part d (fun _ => 0) 0 type direntName
    ((writeCluster part d blankBlockId e.1).1, e.2)

/-- The end of `fat32_create`: a new directory gets its first two entries, and the first cluster of
the new entry is taken. -/
def finishCreate (isDir : Bool) (parent : ℕ) (p : Disk × ℕ) : Disk :=
  fatSetEntry part (if isDir then (writeCluster part p.1 p.2 (dotEntries p.2 parent)).1 else p.1)
    p.2 fat32Eoc

def fat32Create (env : FatEnv) (d : Disk) (path : List UInt8) (isDir : Bool) : Option (Disk × ℤ) :=
  if path.head? ≠ some slash then some (d, -1)
  else
    let parent := findClusterFromPath part (env.junk 0) d (parentPath path)
    (findFreeSlot part d env.fuel parent parent (env.junk 1 0)).map fun r =>
      (finishCreate part isDir parent
        (placeNew part d (if isDir then 0x10 else 0x20) (formatName83 (lastName path)) r), 0)

/-! ## Renaming -/

/-- The loop of `fat32_rename` that looks for the source: in the first cluster with the name, the
last entry with it, deleted and unused ones included. -/
def findSource (d : Disk) (direntName : List UInt8) : ℕ → ℕ → Buf → Option (Option Buf)
  | 0, _, _ => none
  | fuel + 1, cluster, buf =>
    if cluster < 2 then some none
    else
      let buf := (readCluster part d cluster buf).1
      match
        ((List.range slotsPerCluster).filter fun i => slotName buf i == direntName).getLast? with
      | some i => some (some (slot buf i))
      | none => findSource d direntName fuel (getNextCluster part d cluster) buf

/-- The entry of `fat32_rename`, in a free slot or in a further cluster of the directory. -/
def placeEntry (d : Disk) (e : Buf) : FreeSlot → Disk
  | .found cluster i buf => (writeCluster part d cluster (setSlot buf i e)).1
  | .absent last =>
    let blankBlockId := findBlankCluster part d
    let d := extendDirentCluster part d last blankBlockId
    (writeCluster part d blankBlockId (setSlot (fun _ => 0) 0 e)).1

/-- The end of `fat32_rename` for a directory: the second entry of the cluster to which the
destination leads gets the new parent. -/
def setParentEntry (junk : ℕ → Buf) (d : Disk) (pathDes : List UInt8) (parent : ℕ) : Disk :=
  let desClusterId := findClusterFromPath part (fun n => junk (n + 1)) d pathDes
  let buffer := (readCluster part d desClusterId (junk 0)).1
  (writeCluster part d desClusterId (setSlot buffer 1 (withCluster parent (slot buffer 1)))).1

/-- `fat32_rename`. The entry of a source that is not found is whatever was in the local
variable. -/
def fat32Rename (env : FatEnv) (d : Disk) (pathSrc pathDes : List UInt8) (isDir : Bool) :
    Option Disk :=
  if pathDes.head? ≠ some slash then some d
  else if pathSrc.head? ≠ some slash then some d
  else
    let parentSrc := findClusterFromPath part (env.junk 0) d (parentPath pathSrc)
    (findSource part d (formatName83 (lastName pathSrc)) env.fuel parentSrc (env.junk 1 0)).bind
      fun source =>
    let entry := source.getD (env.junk 1 1)
    let parentDes := findClusterFromPath part (env.junk 2) d (parentPath pathDes)
    let entry := blit entry 0 11 fun k => (formatName83 (lastName pathDes)).getD k 0
    (findFreeSlot part d env.fuel parentDes parentDes (env.junk 3 0)).bind fun place =>
    let d := placeEntry part d entry place
    let env' := { env with junk := fun n => env.junk (n + 5) }
    if isDir then
      (fat32RmdirEntry part env' d pathSrc).map fun r =>
        setParentEntry part (env.junk 4) r.1 pathDes parentDes
    else (fat32UnlinkFileEntry part env' d pathSrc).map Prod.fst

end Update

/-! ## Calls -/

inductive FatCall where
  | create (path : List UInt8) (isDir : Bool)
  | write (path : List UInt8) (buf : Buf) (offset size : ℕ)
  | truncate (path : List UInt8)
  | rename (src des : List UInt8) (isDir : Bool)
  | rmdirEntry (path : List UInt8)

def FatCall.step (part : ℕ) (d : Disk) : FatEnv × FatCall → Option Disk
  | (env, .create path isDir) => (fat32Create part env d path isDir).map Prod.fst
  | (env, .write path buf offset size) =>
    (fat32WriteFileBytes part env d path buf offset size).map Prod.fst
  | (env, .truncate path) => (fat32TruncateFile part env d path).map Prod.fst
  | (env, .rename src des isDir) => fat32Rename part env d src des isDir
  | (env, .rmdirEntry path) => (fat32RmdirEntry part env d path).map Prod.fst

end CarrotOS.Fat32
