import CarrotOS.Lib.Bytes
import CarrotOS.Lib.Word

/-!
# Sectors, clusters and the FAT (`core/filesytem/fat32.h`)

A disk is a function from byte addresses to bytes. The device always succeeds and every sector
number below `2 ^ 32` exists. Each routine reads the partition table and the boot sector again, as
the source does. Buffers are functions too: a routine that does not fill its buffer leaves in it
what was there.
-/

namespace CarrotOS.Fat32

open Word Bytes

abbrev Buf := ℕ → UInt8

abbrev Disk := ℕ → UInt8

def sectorSize : ℕ := 512

def clusterSize : ℕ := 4096

def fat32Eoc : ℕ := 0x0FFFFFF8

/-- The result of `& 0x0FFFFFFF`. -/
def mask28 (x : ℕ) : ℕ := x % 0x10000000

def word (k : ℕ) (b : Buf) (a : ℕ) : ℕ :=
  leNat k fun i => b (a + i)

def sector (d : Disk) (lba : ℕ) : Buf :=
  fun i => d (sectorSize * lba + i)

def writeSector (d : Disk) (lba : ℕ) (buf : Buf) : Disk :=
  blit d (sectorSize * lba) sectorSize buf

structure Bpb where
  bytesPerSector : ℕ
  sectorsPerCluster : ℕ
  reservedSectorCount : ℕ
  numFats : ℕ
  fatSize32 : ℕ
  rootCluster : ℕ
  deriving DecidableEq, Repr

def readBpb (b : Buf) : Bpb where
  bytesPerSector := word 2 b 11
  sectorsPerCluster := word 1 b 13
  reservedSectorCount := word 2 b 14
  numFats := word 1 b 16
  fatSize32 := word 4 b 36
  rootCluster := word 4 b 44

section Reading

-- the number of the partition
variable (part : ℕ) (d : Disk)

def getPartitionLba : ℕ :=
  let mbr := sector d 0
  if mbr 510 ≠ 0x55 ∨ mbr 511 ≠ 0xAA then 0 else word 4 mbr (0x1BE + part * 16 + 8)

def getBpb : Bpb :=
  readBpb (sector d (getPartitionLba part d))

def getRootDirCluster : ℕ :=
  if getPartitionLba part d = 0 then 0 else (getBpb part d).rootCluster

def firstDataSector : ℕ :=
  let bpb := getBpb part d
  u32 (bpb.reservedSectorCount + bpb.numFats * bpb.fatSize32)

/-- `first_sector_of_cluster`, for a cluster number from 2 on. -/
def firstSectorOfCluster (cluster : ℕ) : ℕ :=
  u32 (getPartitionLba part d + firstDataSector part d +
    (cluster - 2) * (getBpb part d).sectorsPerCluster)

/-- `read_cluster` into a buffer of `CLUSTER_SIZE` bytes, with its result. -/
def readCluster (cluster : ℕ) (buf : Buf) : Buf × ℤ :=
  let bpb := getBpb part d
  if cluster < 2 then (buf, -1)
  else if clusterSize < bpb.sectorsPerCluster * bpb.bytesPerSector then (buf, -2)
  else
    ((List.range bpb.sectorsPerCluster).foldl (fun b i =>
      blit b (i * sectorSize) sectorSize (sector d (u32 (firstSectorOfCluster part d cluster + i))))
      buf, 0)

/-- `write_cluster`: always eight sectors. -/
def writeCluster (cluster : ℕ) (buf : Buf) : Disk × ℤ :=
  if cluster < 2 then (d, -1)
  else
    let first := firstSectorOfCluster part d cluster
    ((List.range (clusterSize / sectorSize)).foldl (fun d i =>
      writeSector d (u32 (first + i)) fun j => buf (i * sectorSize + j)) d, 0)

/-- `cluster_to_lba`, which also takes numbers below 2. -/
def clusterToLba (cluster : ℕ) : ℕ :=
  u32 (u32 (cluster + 2 ^ 32 - 2) * (getBpb part d).sectorsPerCluster + firstDataSector part d)

/-- The sector of the first FAT that holds the entry of a cluster, counted from the partition. -/
def fatSector (cluster : ℕ) : ℕ :=
  let bpb := getBpb part d
  u32 (getPartitionLba part d + bpb.reservedSectorCount + u32 (cluster * 4) / bpb.bytesPerSector)

/-- The entry of a cluster in the first FAT, without its upper four bits. -/
def fat32GetFatEntry (cluster : ℕ) : ℕ :=
  mask28 (word 4 (sector d (fatSector part d cluster))
    (u32 (cluster * 4) % (getBpb part d).bytesPerSector))

/-- `get_next_cluster`: an end of the chain becomes 0. -/
def getNextCluster (cluster : ℕ) : ℕ :=
  let nextCluster := fat32GetFatEntry part d cluster
  if fat32Eoc ≤ nextCluster then 0 else nextCluster

def findBlankCluster : ℕ :=
  let bpb := getBpb part d
  let fatStartLba := u32 (getPartitionLba part d + bpb.reservedSectorCount)
  let entriesPerSector := bpb.bytesPerSector / 4
  let value := fun cluster : ℕ =>
    mask28 (word 4 (sector d (u32 (fatStartLba + cluster / entriesPerSector)))
      (4 * (cluster % entriesPerSector)))
  ((List.range' 2 (u32 (bpb.fatSize32 * entriesPerSector) - 2)).find? fun cluster =>
    value cluster == 0).getD 0

end Reading

section Writing

variable (part : ℕ) (d : Disk)

/-- The loop that writes the other copies of a sector of the FAT. -/
def writeMirrors (d : Disk) (sector numFats fatSize : ℕ) (buf : Buf) : Disk :=
  (List.range (numFats - 1)).foldl (fun d i =>
    writeSector d (u32 (sector + (i + 1) * fatSize)) buf) d

def fat32SetFatEntry (cluster value : ℕ) : Disk :=
  let bpb := getBpb part d
  let lba := fatSector part d cluster
  let offset := u32 (cluster * 4) % bpb.bytesPerSector
  let sectorBuf := blit (sector d lba) offset 4 (leByte (mask28 value))
  writeMirrors (writeSector d lba sectorBuf) lba bpb.numFats bpb.fatSize32 sectorBuf

/-- `fat_set_entry`: what it writes to the other copies is the boot sector. -/
def fatSetEntry (cluster value : ℕ) : Disk :=
  let lba := getPartitionLba part d
  let buffer := sector d lba
  let bpb := readBpb buffer
  let fatStart := u32 (lba + bpb.reservedSectorCount)
  let fatOffset := u32 (cluster * 4)
  let sectorId := u32 (fatStart + fatOffset / sectorSize)
  let offset := fatOffset % sectorSize
  let buffer1 := blit (sector d sectorId) offset 4 (leByte (mask28 value))
  writeMirrors (writeSector d sectorId buffer1) sectorId bpb.numFats bpb.fatSize32 buffer

/-- One of the two assignments to the FAT in `extend_dirent_cluster`, which leaves the other copies
alone. -/
def setFirstFat (fatStartLba entriesPerSector : ℕ) (d : Disk) (cluster value : ℕ) : Disk :=
  let lba := u32 (fatStartLba + cluster / entriesPerSector)
  writeSector d lba (blit (sector d lba) (4 * (cluster % entriesPerSector)) 4 (leByte value))

def extendDirentCluster (lastClusterId blankClusterId : ℕ) : Disk :=
  let bpb := getBpb part d
  let fatStartLba := u32 (getPartitionLba part d + bpb.reservedSectorCount)
  let entriesPerSector := bpb.bytesPerSector / 4
  let d := setFirstFat fatStartLba entriesPerSector d lastClusterId (mask28 blankClusterId)
  let d := setFirstFat fatStartLba entriesPerSector d blankClusterId 0x0FFFFFFF
  (writeCluster part d blankClusterId fun _ => 0).1

end Writing

end CarrotOS.Fat32
