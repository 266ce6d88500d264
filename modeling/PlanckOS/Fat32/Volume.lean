import PlanckOS.Fat32.Device

/-!
# The FAT32 volume of `src/hal/fat32.rs`

Mounting, FAT entries, clusters, directory names, lookup and path resolution. `u32` and `u16`
quantities are naturals with the wrapping of the release profile written out. Loops over cluster
chains take at most `LOOP_BOUND` rounds; a loop cut off there has diverged.
-/

set_option autoImplicit false

namespace PlanckOS.Fat32

open Lib.Fallible Lib.Loop

/-! ## Constants -/

def FA_READ : Nat := 0x01
def FA_WRITE : Nat := 0x02
def FA_OPEN_EXISTING : Nat := 0x00
def FA_CREATE_NEW : Nat := 0x04
def FA_CREATE_ALWAYS : Nat := 0x08
def FA_OPEN_ALWAYS : Nat := 0x10
def FA_OPEN_APPEND : Nat := 0x30

def ATTR_READ_ONLY : Nat := 0x01
def ATTR_HIDDEN : Nat := 0x02
def ATTR_SYSTEM : Nat := 0x04
def ATTR_VOLUME : Nat := 0x08
def ATTR_DIRECTORY : Nat := 0x10
def ATTR_ARCHIVE : Nat := 0x20
def ATTR_LFN : Nat := 0x0F

def DIR_SIZE : Nat := 32

/-- First value of a FAT entry that ends a chain. -/
def END_MARK : Nat := 0x0FFFFFF8

/-- Rounds after which a chain walk has certainly revisited a cluster. -/
@[irreducible] def LOOP_BOUND : Nat := 2 ^ 64

theorem loopBound_gt : 2 ^ 32 < LOOP_BOUND := by
  rw [LOOP_BOUND]
  norm_num

theorem loopBound_succ : ∃ n, LOOP_BOUND = n + 1 :=
  ⟨LOOP_BOUND - 1, by have := loopBound_gt; omega⟩

/-! ## Volume -/

/-- The geometry kept by a mounted volume. The device is the state of the operations, and the
scratch buffer is not used. -/
structure FatVolume where
  sectorsPerCluster : Nat
  reservedSectors : Nat
  numFats : Nat
  sectorsPerFat : Nat
  rootCluster : Nat
  dataRegionLba : Nat
  fatRegionLba : Nat
  deriving DecidableEq, Repr

variable {δ : Type} [BlockDevice δ]

/-- `f_mount`, up to the current directory. -/
def fMount : DevOp δ FatVolume := do
  let dev ← Op.get
  if BlockDevice.sectorCount dev = 0 then Op.throw .diskErr
  else
    let sector ← readSector 0
    let buf := sector.buf
    if buf 0x1FE ≠ 0x55 ∨ buf 0x1FF ≠ 0xAA then Op.throw .mkfsAborted
    else if buf.le16 0x0B ≠ SECTOR_SIZE then Op.throw .invalid
    else
      let spc := (buf 0x0D).toNat
      if spc = 0 ∨ spc &&& (spc - 1) ≠ 0 then Op.throw .invalid
      else
        let reserved := buf.le16 0x0E
        let numFats := (buf 0x10).toNat
        let rootEntCnt := buf.le16 0x11
        let fatsz := buf.le32 0x24
        let rootCluster := buf.le32 0x2C
        if rootEntCnt ≠ 0 ∨ fatsz = 0 then Op.throw .invalid
        else
          pure {
            sectorsPerCluster := spc
            reservedSectors := reserved
            numFats
            sectorsPerFat := fatsz
            rootCluster
            dataRegionLba := (reserved + numFats * fatsz) % 2 ^ 32
            fatRegionLba := reserved }

/-- `with_vol`. -/
def withVol {α : Type} (vol : Option FatVolume) (f : FatVolume → DevOp δ α) : DevOp δ α :=
  match vol with
  | some v => f v
  | none => Op.throw .notEnabled

namespace FatVolume

section

variable (vol : FatVolume)

/-- Bytes of a cluster. -/
def clusterSize : Nat := vol.sectorsPerCluster * SECTOR_SIZE

/-- Directory slots of a cluster. -/
def slotsPerCluster : Nat := vol.clusterSize / DIR_SIZE

def clusterToLba (cluster : Nat) : Nat :=
  (vol.dataRegionLba + (cluster + (2 ^ 32 - 2)) % 2 ^ 32 * vol.sectorsPerCluster) % 2 ^ 32

/-- Sector of the first FAT that holds the entry of `cluster`. -/
def fatSector (cluster : Nat) : Nat :=
  (vol.fatRegionLba + cluster * 4 % 2 ^ 32 / SECTOR_SIZE) % 2 ^ 32

/-- Offset of the entry of `cluster` in its sector. -/
def fatOffset (cluster : Nat) : Nat := cluster * 4 % 2 ^ 32 % SECTOR_SIZE

def readFatEntry (cluster : Nat) : DevOp δ Nat := do
  let sector ← readSector (vol.fatSector cluster)
  pure (sector.buf.le32 (fatOffset cluster) &&& 0x0FFFFFFF)

/-- The sector with the entry at `offset` replaced, its top four bits kept. -/
def mergeEntry (sector : Sector) (offset val : Nat) : Sector :=
  let old := sector.buf.le32 offset
  let merged := (old &&& 0xF0000000) ||| (val &&& 0x0FFFFFFF)
  Sector.ofBuf (sector.buf.store offset (bytes32 merged))

def writeFatEntry (cluster val : Nat) : DevOp δ Unit := do
  let sector := vol.fatSector cluster
  let old ← readSector sector
  let new := mergeEntry old (fatOffset cluster) val
  -- write to all FAT copies
  Op.forUpto (fun fatIdx =>
    let fatStart := (vol.fatRegionLba + fatIdx * vol.sectorsPerFat) % 2 ^ 32
    writeSector ((fatStart + sector + (2 ^ 32 - vol.fatRegionLba)) % 2 ^ 32) new) vol.numFats

/-- The sectors `lba, …, lba + n - 1` as one buffer. -/
def readSectors (lba : Nat) : Nat → DevOp δ Buf
  | 0 => pure fun _ => 0
  | n + 1 => do
      let buf ← readSectors lba n
      let sector ← readSector ((lba + n) % 2 ^ 32)
      pure fun k => if n * SECTOR_SIZE ≤ k then sector.buf (k - n * SECTOR_SIZE) else buf k

def readCluster (cluster : Nat) : DevOp δ Buf :=
  readSectors (vol.clusterToLba cluster) vol.sectorsPerCluster

def writeCluster (cluster : Nat) (buf : Buf) : DevOp δ Unit :=
  Op.forUpto (fun i =>
    writeSector ((vol.clusterToLba cluster + i) % 2 ^ 32)
      (Sector.ofBuf fun j => buf (i * SECTOR_SIZE + j))) vol.sectorsPerCluster

/-- Number of entries of the FAT. -/
def maxCluster : Nat := vol.sectorsPerFat * SECTOR_SIZE % 2 ^ 32 / 4

/-- The scan of `find_free_cluster`: `n` clusters from `c` on. -/
def findFreeFrom : Nat → Nat → DevOp δ Nat
  | _, 0 => Op.throw .mkfsAborted
  | c, n + 1 => do
      let entry ← vol.readFatEntry c
      if entry = 0 then pure c else findFreeFrom (c + 1) n

def findFreeCluster : DevOp δ Nat := vol.findFreeFrom 2 (vol.maxCluster - 2)

/-- The loop of `count_free_clusters`: `n` clusters from `c` on. -/
def countFreeFrom (c count : Nat) : Nat → DevOp δ Nat
  | 0 => pure count
  | n + 1 => do
      let entry ← vol.readFatEntry c
      countFreeFrom (c + 1) (if entry = 0 then (count + 1) % 2 ^ 32 else count) n

def countFreeClusters : DevOp δ Nat := vol.countFreeFrom 2 0 (vol.maxCluster - 2)

end

/-! ## Directory entries -/

/-- A directory slot: 32 bytes. -/
abbrev Entry := Buf

/-- Slot `idx` of a directory cluster, and nothing behind it. -/
def entryAt (buf : Buf) (idx : Nat) : Entry := fun k =>
  if k < DIR_SIZE then buf (idx * DIR_SIZE + k) else 0

section

variable (e : Entry)

def attrOf : Nat := (e 0x0B).toNat

/-- `u32::from_le_bytes([e[0x1A], e[0x1B], e[0x14], e[0x15]])`. -/
def startOf : Nat := e.le16 0x1A + 65536 * e.le16 0x14

def sizeOf : Nat := e.le32 0x1C

/-- The bytes from `j` on, up to `stop` or the first space or NUL. -/
def nameRun (j : Nat) : Nat → Bytes
  | 0 => []
  | n + 1 => if e j ≠ 0x20 ∧ e j ≠ 0 then e j :: nameRun (j + 1) n else []

/-- The decoded 8.3 name, without its padding. -/
def decodedName : Bytes :=
  let base := nameRun e 0 8
  if e 8 ≠ 0x20 ∧ e 8 ≠ 0 then base ++ 0x2E :: nameRun e 8 3 else base

/-- The name padded to 13 bytes, or `None` when it is empty. -/
def readDirEntryName : Option Bytes :=
  let name := decodedName e
  if name.length = 0 then none else some (name ++ List.replicate (13 - name.length) 0)

/-- `u8::to_ascii_lowercase`. -/
def asciiLower (b : UInt8) : UInt8 := if 0x41 ≤ b ∧ b ≤ 0x5A then b + 0x20 else b

def eqIgnoreAsciiCase (a b : UInt8) : Bool := asciiLower a == asciiLower b

/-- The comparison loop of `find_entry_in_dir`: whether it reaches the end of the target. `none` is
an index past the 13 bytes of the name. -/
def targetMatched : Bytes → Bytes → Option Bool
  | _, [] => some true
  | [], _ :: _ => none
  | n :: name, t :: target => if eqIgnoreAsciiCase n t then targetMatched name target
      else some false

/-- What `find_entry_in_dir` does at one slot. -/
inductive SlotVerdict where
  | skip
  | stop
  | hit
  | panic
  deriving DecidableEq, Repr

def checkSlot (target : Bytes) : SlotVerdict :=
  let attr := attrOf e
  if attr = ATTR_LFN ∨ attr &&& ATTR_VOLUME ≠ 0 then .skip
  else if e 0 = 0 then .stop
  else if e 0 = 0xE5 then .skip
  else
    match readDirEntryName e with
    | none => .skip
    | some name =>
        match targetMatched name target with
        | none => .panic
        | some true => .hit
        | some false => .skip

end

/-- How the scan of one directory cluster ends. -/
inductive ScanResult where
  | found (idx : Nat)
  | stopped
  | exhausted
  | panic
  deriving DecidableEq, Repr

/-- The slot loop over one cluster: `n` slots from `idx` on. -/
def scanSlots (buf : Buf) (target : Bytes) : Nat → Nat → ScanResult
  | _, 0 => .exhausted
  | idx, n + 1 =>
      match checkSlot (entryAt buf idx) target with
      | .skip => scanSlots buf target (idx + 1) n
      | .stop => .stopped
      | .hit => .found idx
      | .panic => .panic

/-- One round of the cluster loop of `find_entry_in_dir`. -/
def findEntryStep (vol : FatVolume) (target : Bytes) (cluster : Nat) :
    DevOp δ (Flow Nat (Option (Nat × Nat))) :=
  if 2 ≤ cluster ∧ cluster < END_MARK then do
    let buf ← vol.readCluster cluster
    match scanSlots buf target 0 vol.slotsPerCluster with
    | .found idx => pure (.done (some (cluster, idx)))
    | .stopped => pure (.done none)
    | .panic => Op.panic
    | .exhausted => do
        let next ← vol.readFatEntry cluster
        pure (.next next)
  else pure (.done none)

/-- The slot whose name matches, as its cluster and its index there. -/
def findEntryInDir (vol : FatVolume) (dirCluster : Nat) (target : Bytes) :
    DevOp δ (Option (Nat × Nat)) :=
  Op.loopM (vol.findEntryStep target) LOOP_BOUND dirCluster

def readEntryData (vol : FatVolume) (dirCluster entryIdx : Nat) : DevOp δ Entry := do
  let buf ← vol.readCluster dirCluster
  pure (entryAt buf entryIdx)

end FatVolume

/-! ## Paths -/

/-- The walk of `resolve_path` over the components of a path. -/
def resolveFrom (vol : FatVolume) (cluster : Nat) : List Bytes → DevOp δ (Nat × Bytes)
  | [] => pure (cluster, [])
  | [component] => pure (cluster, component)
  | component :: rest =>
      if component = [] then resolveFrom vol cluster rest
      else do
        match ← vol.findEntryInDir cluster component with
        | some (dirCluster, idx) =>
            let entry ← vol.readEntryData dirCluster idx
            resolveFrom vol (FatVolume.startOf entry) rest
        | none => Op.throw .noPath

/-- `path.trim_start_matches('/')`, split at `'/'`. -/
def pathComponents (path : Bytes) : List Bytes :=
  (path.dropWhile (· == 0x2F)).splitOn 0x2F

/-- The directory a path leads to, and the last component. -/
def resolvePath (vol : FatVolume) (path : Bytes) : DevOp δ (Nat × Bytes) :=
  if path.dropWhile (· == 0x2F) = [] then pure (vol.rootCluster, [])
  else resolveFrom vol vol.rootCluster (pathComponents path)

end PlanckOS.Fat32
