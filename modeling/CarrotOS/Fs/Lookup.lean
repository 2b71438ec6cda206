import CarrotOS.Fs.Disk
import CarrotOS.Fs.Name
import CarrotOS.Mem.Fifo

/-!
# Directory entries, lookups and reading (`core/filesytem/fat32.h`)

A cluster of a directory has 128 slots of 32 bytes. The lookups scan them in order; they differ in
what ends a scan, in what they compare, and in how many clusters they visit. A loop over the
clusters of a directory that does not end has no result, whatever the fuel. The contents of
uninitialised variables are arbitrary and are given by an argument `junk`.
-/

namespace CarrotOS.Fat32

open Word Bytes

/-! ## Slots -/

def slot (b : Buf) (i : ℕ) : Buf :=
  fun j => b (32 * i + j)

def slotName (b : Buf) (i : ℕ) : List UInt8 :=
  cells 11 (slot b i)

def slotFirst (b : Buf) (i : ℕ) : UInt8 :=
  b (32 * i)

def slotAttr (b : Buf) (i : ℕ) : UInt8 :=
  b (32 * i + 11)

def getEntryCluster (e : Buf) : ℕ :=
  word 2 e 20 * 2 ^ 16 + word 2 e 26

def fileSize (e : Buf) : ℕ :=
  word 4 e 28

def slotsPerCluster : ℕ := clusterSize / 32

/-- Outcome of a scan: a slot ended it, a hit, or neither. -/
inductive Scan where
  | stopped
  | hit (i : ℕ)
  | exhausted
  deriving DecidableEq, Repr

/-- The scan of the given slots. -/
def scanFrom (stop hit : ℕ → Bool) : List ℕ → Scan
  | [] => .exhausted
  | i :: is => if stop i then .stopped else if hit i then .hit i else scanFrom stop hit is

def scan (stop hit : ℕ → Bool) : Scan :=
  scanFrom stop hit (List.range slotsPerCluster)

/-! ## `find_cluster_from_path` -/

section Lookup

variable (part : ℕ)

/-- The scan of one cluster of a directory for a component. -/
def scanToken (b : Buf) (token : List UInt8) : Scan :=
  scan (fun i => slotFirst b i == 0)
    (fun i => slotFirst b i != 0xE5 && slotAttr b i != 0x0F && matchName token (slotName b i))

/-- The loop of `find_cluster_from_path`: only the first cluster of each directory is read. The
argument `junk` has the contents of `buf` at each turn. -/
def findClusterLoop (d : Disk) : List (List UInt8) → ℕ → (ℕ → Buf) → Option ℕ
  | [], cluster, _ => some cluster
  | token :: rest, cluster, junk =>
    let buf := (readCluster part d cluster (junk 0)).1
    match scanToken buf token with
    | .hit i => findClusterLoop d rest (getEntryCluster (slot buf i)) fun n => junk (n + 1)
    | _ => none

def findClusterFromPath (junk : ℕ → Buf) (d : Disk) (path : List UInt8) : ℕ :=
  if path.head? ≠ some slash then 0
  else if path = [slash] then getRootDirCluster part d
  else (findClusterLoop part d (tokens path) (getRootDirCluster part d) junk).getD 0

/-! ## `find_dir_entry` -/

/-- The slots of a cluster that `find_dir_entry` takes for a component, in the order in which it
meets them: in each sector it stops at an unused slot, and it goes on to the next sector. -/
def dirMatches (d : Disk) (cluster : ℕ) (name83 : List UInt8) : List (ℕ × ℕ) :=
  let lba := clusterToLba part d cluster
  (List.range (getBpb part d).sectorsPerCluster).flatMap fun s =>
    let sectorId := u32 (getPartitionLba part d + lba + s)
    (((List.range 16).takeWhile fun e => slotFirst (sector d sectorId) e != 0).filter fun e =>
      slotAttr (sector d sectorId) e &&& 0x0F == 0 && slotName (sector d sectorId) e == name83).map
        fun e => (sectorId, e)

/-- The loop of `find_dir_entry`, for the components that are left. The result is that of the
function and `*result`, which keeps its old contents unless an entry is found. -/
def findDirEntryLoop (d : Disk) : List (List UInt8 × Bool) → ℕ → Buf → Bool × Buf
  | [], _, result => (true, result)
  | (token, true) :: rest, cluster, result =>
    -- the last hit counts, the cluster scanned being fixed
    match (dirMatches part d cluster (formatName83 token)).getLast? with
    | none => (false, result)
    | some (sectorId, e) =>
      findDirEntryLoop d rest (getEntryCluster (slot (sector d sectorId) e)) result
  | (token, false) :: rest, cluster, result =>
    match (dirMatches part d cluster (formatName83 token)).head? with
    | none => findDirEntryLoop d rest cluster result
    | some (sectorId, e) => (true, slot (sector d sectorId) e)

def findDirEntry (d : Disk) (path : List UInt8) (result : Buf) : Bool × Buf :=
  let path := if path.head? = some slash then path.drop 1 else path
  findDirEntryLoop part d (segments path []) (getBpb part d).rootCluster result

def getFileSize (junk : Buf) (d : Disk) (path : List UInt8) : ℕ :=
  let r := findDirEntry part d path junk
  if r.1 then fileSize r.2 else 2 ^ 64 - 1

/-! ## `fat32_stat` -/

structure DirentStat where
  name : List UInt8
  type : PathType
  parentClusterId : ℕ

/-- The comparison of `fat32_stat`: as many bytes as the name has. Behind the 11 bytes of the 8.3
name there is whatever was in the local array. -/
def statMatches (junk : Buf) (b : Buf) (i : ℕ) (name : List UInt8) : Bool :=
  let name83 := fun k => (formatName83 name).getD k (junk k)
  cells name.length (slot b i) == cells name.length name83

/-- The scan of `fat32_stat`, which ends at an entry without attributes. -/
def statScan (junk : Buf) (b : Buf) (name : List UInt8) : Scan :=
  scan (fun i => slotAttr b i == 0)
    (fun i => slotAttr b i != 0xE5 && slotAttr b i != 0x0F && statMatches junk b i name)

/-- The loop of `fat32_stat`: at the end of the chain it goes on with the entry of cluster 0 in the
FAT, and the buffer keeps its contents when a cluster cannot be read. -/
def statLoop (junk : Buf) (d : Disk) (name : List UInt8) (parent : ℕ) :
    ℕ → ℕ → Buf → Option DirentStat
  | 0, _, _ => none
  | fuel + 1, cluster, buf =>
    let buf := (readCluster part d cluster buf).1
    match statScan junk buf name with
    | .stopped => some ⟨[], .notFound, 0⟩
    | .hit i =>
      some ⟨name.take 11, if slotAttr buf i = 0x10 then .directory else .file, parent⟩
    | .exhausted => statLoop junk d name parent fuel (getNextCluster part d cluster) buf

def fat32Stat (fuel : ℕ) (junk : ℕ → Buf) (d : Disk) (path : List UInt8) : Option DirentStat :=
  if path.head? ≠ some slash then some ⟨[], .notFound, 0⟩
  else if path = [slash] then some ⟨[slash], .directory, 0⟩
  else
    let parent := findClusterFromPath part (fun n => junk (n + 2)) d (parentPath path)
    statLoop part (junk 0) d (lastName path) parent fuel parent (junk 1)

/-! ## `fat32_read_file_bytes` -/

/-- The loop that passes over clusters before the offset, in `fat32_read_file_bytes` and in
`fat32_write_file_bytes`. -/
def skipClusters (d : Disk) : ℕ → ℕ → Option ℕ
  | 0, cluster => some cluster
  | n + 1, cluster =>
    let cluster := getNextCluster part d cluster
    if fat32Eoc ≤ cluster then none else skipClusters d n cluster

/-- The loop of `fat32_read_file_bytes`: the number of bytes read or the error, and the caller's
buffer. It ends, since each turn copies at least one byte; `fuel` is the number of bytes asked
for. -/
def readLoop (d : Disk) : ℕ → ℕ → ℕ → ℕ → ℕ → Buf → Buf → ℤ × Buf
  | 0, _, _, _, totalRead, _, buf => (totalRead, buf)
  | fuel + 1, size, cluster, offsetInCluster, totalRead, tmp, buf =>
    if 0 < size ∧ cluster < 0x0FFFFFF8 then
      let r := readCluster part d cluster tmp
      if r.2 ≠ 0 then (-3, buf)
      else
        let toCopy := min (clusterSize - offsetInCluster) size
        let buf := blit buf totalRead toCopy fun k => r.1 (offsetInCluster + k)
        let size := size - toCopy
        let cluster := if 0 < size then getNextCluster part d cluster else cluster
        readLoop d fuel size cluster 0 (totalRead + toCopy) r.1 buf
    else (totalRead, buf)

def fat32ReadFileBytes (junk : ℕ → Buf) (d : Disk) (path : List UInt8) (buf : Buf)
    (offset size : ℕ) : ℤ × Buf :=
  let cluster := findClusterFromPath part (fun n => junk (n + 2)) d path
  if cluster = 0 then (-1, buf)
  else
    let fileSize := getFileSize part (junk 0) d path
    if fileSize ≤ offset then (0, buf)
    else
      let size := if fileSize < u64 (offset + size) then fileSize - offset else size
      match skipClusters part d (offset / clusterSize) cluster with
      | none => (-2, buf)
      | some cluster => readLoop part d size size cluster (offset % clusterSize) 0 (junk 1) buf

end Lookup

end CarrotOS.Fat32
