import PlanckOS.Fat32.File

/-!
# File and directory management of `src/hal/fat32.rs`

`f_stat`, `f_mkdir`, `f_unlink`, `f_rename`, `f_chmod`, `f_utime` and `f_getfree`. Except for the
last each one resolves a path, looks the last component up and then works on the slot found. The
second part is a definition of its own (`statAt`, `unlinkAt`, ...), so that what an operation does
to a slot can be said apart from which slot the lookup chose.
-/

set_option autoImplicit false

namespace PlanckOS.Fat32

open Lib.Fallible FatVolume List

variable {δ : Type} [BlockDevice δ]

/-! ## `f_stat` -/

structure FileInfo where
  size : Nat
  attributes : Nat
  startCluster : Nat
  writeTime : Nat
  writeDate : Nat
  deriving DecidableEq, Repr

/-- The information in the slot found. -/
def statAt (vol : FatVolume) (entryCluster entryIdx : Nat) : DevOp δ FileInfo := do
  let entry ← vol.readEntryData entryCluster entryIdx
  pure {
    size := FatVolume.sizeOf entry
    attributes := attrOf entry
    startCluster := startOf entry
    writeTime := entry.le16 0x16
    writeDate := entry.le16 0x18 }

/-- Look the last component up and go on with its slot, or fail with `NoFile`. -/
def withEntry {α : Type} (vol : FatVolume) (dirCluster : Nat) (name : Bytes)
    (f : Nat → Nat → DevOp δ α) : DevOp δ α := do
  match ← vol.findEntryInDir dirCluster name with
  | some (entryCluster, entryIdx) => f entryCluster entryIdx
  | none => Op.throw .noFile

def fStat (vol : Option FatVolume) (path : Bytes) : DevOp δ FileInfo :=
  withVol vol fun vol => do
    let (parent, name) ← resolvePath vol path
    if name = [] then
      pure ⟨0, ATTR_DIRECTORY, vol.rootCluster, 0, 0⟩
    else withEntry vol parent name (statAt vol)

/-! ## `f_mkdir` -/

/-- The first cluster of a new directory: `.` and `..`. -/
def freshDirectory (newCluster parentCluster : Nat) : Buf :=
  let buf : Buf := fun _ => 0
  let buf := buf.store 0 (0x2E :: replicate 10 0x20)
  let buf := buf.set 0x0B 0x10
  let buf := storeStart buf 0 newCluster
  let buf := buf.store 32 (0x2E :: 0x2E :: replicate 9 0x20)
  let buf := buf.set (32 + 0x0B) 0x10
  storeStart buf 32 parentCluster

/-- The name bytes `f_mkdir` writes over the slot at `off`. The extension is only written when the
name has a dot or more than eight bytes. -/
def storeDirName (buf : Buf) (off : Nat) (name : Bytes) : Buf :=
  let base := (name.take 8).takeWhile (· != 0x2E)
  let buf := buf.store off base
  let buf := if 8 < name.length then buf.store (off + 8) (replicate 3 0x20) else buf
  let buf := buf.store (off + base.length) (replicate (8 - base.length) 0x20)
  match name.findIdx? (· == 0x2E) with
  | some dot =>
      let ext := (name.drop (dot + 1)).take 3
      buf.store (off + 8) (ext ++ replicate (3 - ext.length) 0x20)
  | none => buf

/-- The part of `f_mkdir` behind its checks. -/
def mkdirAt (vol : FatVolume) (parentCluster : Nat) (name : Bytes) : DevOp δ Unit := do
  let newCluster ← allocCluster vol
  vol.writeCluster newCluster (freshDirectory newCluster parentCluster)
  let (slotCluster, idx, buf) ← findSlot vol parentCluster
  let off := idx * DIR_SIZE
  let buf := storeDirName buf off name
  let buf := buf.set (off + 0x0B) 0x10
  vol.writeCluster slotCluster (storeStart buf off newCluster)

def fMkdir (vol : Option FatVolume) (path : Bytes) : DevOp δ Unit :=
  withVol vol fun vol => do
    let (parentCluster, name) ← resolvePath vol path
    if name = [] then Op.throw .invalid
    else if 11 < name.length then Op.throw .invalid
    else do
      match ← vol.findEntryInDir parentCluster name with
      | some _ => Op.throw .exists
      | none => mkdirAt vol parentCluster name

/-! ## `f_unlink` -/

/-- Mark the slot as deleted and free its chain. -/
def unlinkAt (vol : FatVolume) (entryCluster entryIdx : Nat) : DevOp δ Unit := do
  let buf ← vol.readCluster entryCluster
  let startCluster := startOf (entryAt buf entryIdx)
  vol.writeCluster entryCluster (buf.set (entryIdx * DIR_SIZE) 0xE5)
  releaseChain vol startCluster

def fUnlink (vol : Option FatVolume) (path : Bytes) : DevOp δ Unit :=
  withVol vol fun vol => do
    let (parentCluster, name) ← resolvePath vol path
    if name = [] then Op.throw .invalid
    else withEntry vol parentCluster name (unlinkAt vol)

/-! ## `f_rename` -/

/-- Write the entry under its new name into a free slot of the new parent, and mark the old slot as
deleted. -/
def moveEntry (vol : FatVolume) (entryCluster entryIdx newParent : Nat) (entry : Entry)
    (newName : Bytes) : DevOp δ Unit := do
  let (destCluster, idx, buf) ← findSlot vol newParent
  let off := idx * DIR_SIZE
  let buf := buf.store off (encodeName newName)
  let buf := buf.store (off + 0x0B) ((range 21).map fun k => entry (0x0B + k))
  vol.writeCluster destCluster buf
  let oldBuf ← vol.readCluster entryCluster
  vol.writeCluster entryCluster (oldBuf.set (entryIdx * DIR_SIZE) 0xE5)

/-- `f_rename` behind the lookup of the old name. -/
def renameAt (vol : FatVolume) (newPath : Bytes) (entryCluster entryIdx : Nat) : DevOp δ Unit := do
  let entry ← vol.readEntryData entryCluster entryIdx
  let (newParent, newName) ← resolvePath vol newPath
  if newName = [] then Op.throw .invalid
  else do
    match ← vol.findEntryInDir newParent newName with
    | some _ => Op.throw .exists
    | none => moveEntry vol entryCluster entryIdx newParent entry newName

def fRename (vol : Option FatVolume) (oldPath newPath : Bytes) : DevOp δ Unit :=
  withVol vol fun vol => do
    let (oldParent, oldName) ← resolvePath vol oldPath
    withEntry vol oldParent oldName (renameAt vol newPath)

/-! ## `f_chmod` and `f_utime` -/

/-- Rewrite the slot found. -/
def updateSlot (vol : FatVolume) (change : Buf → Nat → Buf) (entryCluster entryIdx : Nat) :
    DevOp δ Unit := do
  let buf ← vol.readCluster entryCluster
  vol.writeCluster entryCluster (change buf (entryIdx * DIR_SIZE))

def fChmod (vol : Option FatVolume) (path : Bytes) (attrs : Nat) : DevOp δ Unit :=
  withVol vol fun vol => do
    let (parent, name) ← resolvePath vol path
    -- never set the LFN attribute
    let cleared := UInt8.ofNat (attrs &&& (0xFF - ATTR_LFN))
    withEntry vol parent name (updateSlot vol fun buf off => buf.set (off + 0x0B) cleared)

def fUtime (vol : Option FatVolume) (path : Bytes) (time date : Nat) : DevOp δ Unit :=
  withVol vol fun vol => do
    let (parent, name) ← resolvePath vol path
    withEntry vol parent name (updateSlot vol fun buf off =>
      (buf.store (off + 0x16) (bytes16 time)).store (off + 0x18) (bytes16 date))

/-! ## `f_getfree` -/

/-- The number of free clusters and the number of clusters. -/
def fGetfree (vol : Option FatVolume) : DevOp δ (Nat × Nat) :=
  withVol vol fun vol => do
    let free ← vol.countFreeClusters
    pure (free, (vol.maxCluster + (2 ^ 32 - 2)) % 2 ^ 32)

end PlanckOS.Fat32
