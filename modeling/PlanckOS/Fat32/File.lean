import PlanckOS.Fat32.Volume

/-!
# File operations of `src/hal/fat32.rs`

`f_open`, `f_read`, `f_write`, `f_lseek`, `f_truncate`, `f_expand`, `f_sync` and the accessors. A
handle operation runs on the device together with the handle (`OpenFile`), because a failing call
leaves the handle as far as it got, with the error recorded in it.
-/

set_option autoImplicit false

namespace PlanckOS.Fat32

open Lib.Word Lib.Fallible Lib.Loop FatVolume

/-- The handle of an open file. -/
structure File where
  size : Nat
  position : Nat
  startCluster : Nat
  currentCluster : Nat
  sectorInCluster : Nat
  byteInSector : Nat
  flags : Nat
  dirSector : Nat
  dirOffset : Nat
  modified : Bool
  error : FError
  deriving DecidableEq, Repr

/-- A device and a handle on it. -/
structure OpenFile (δ : Type) where
  dev : δ
  file : File

/-- An operation on a handle. -/
abbrev FileOp (δ : Type) := Op (OpenFile δ) FError

variable {δ : Type} [BlockDevice δ]

/-- `match with_vol(f) { Ok(a) => a, Err(e) => { file.error = e; return Err(e); } }`. -/
def onVol {α : Type} (vol : Option FatVolume) (f : FatVolume → DevOp δ α) : FileOp δ α := fun s =>
  match withVol vol f s.dev with
  | .ok a d => .ok a { s with dev := d }
  | .err e d => .err e { dev := d, file := { s.file with error := e } }
  | .fault w => .fault w

/-- `file.error = Denied; return Err(Denied)`. -/
def deny {α : Type} : FileOp δ α := fun s =>
  .err .denied { s with file := { s.file with error := .denied } }

/-- Change the handle. -/
def updateFile (f : File → File) : FileOp δ Unit := Op.modify fun s => { s with file := f s.file }

/-- The handle. -/
def getFile : FileOp δ File := fun s => .ok s.file s

/-! ## Releasing a chain -/

/-- One round of the release loops: free the cluster and go to its successor. -/
def releaseStep (vol : FatVolume) (clu : Nat) : DevOp δ (Lib.Loop.Flow Nat Unit) :=
  if 2 ≤ clu ∧ clu < END_MARK then do
    let next ← vol.readFatEntry clu
    vol.writeFatEntry clu 0
    pure (.next next)
  else pure (.done ())

/-- `while clu >= 2 && clu < 0xFFFFFF8 { .. write_fat_entry(clu, 0) .. }`. -/
def releaseChain (vol : FatVolume) (clu : Nat) : DevOp δ Unit :=
  Op.loopM (releaseStep vol) LOOP_BOUND clu

/-! ## `f_open` -/

/-- The first slot from `idx` on that was never used or is deleted, among `n`. -/
def freeSlot (buf : Buf) : Nat → Nat → Option Nat
  | _, 0 => none
  | idx, n + 1 =>
      let first := entryAt buf idx 0
      if first = 0 ∨ first = 0xE5 then some idx else freeSlot buf (idx + 1) n

section

variable (vol : FatVolume)

/-- One round of the search for a free slot: its cluster, its index and the cluster's bytes. -/
def findSlotStep (cluster : Nat) : DevOp δ (Lib.Loop.Flow Nat (Nat × Nat × Buf)) := do
  let buf ← vol.readCluster cluster
  match freeSlot buf 0 vol.slotsPerCluster with
  | some idx => pure (.done (cluster, idx, buf))
  | none => do
      let next ← vol.readFatEntry cluster
      if END_MARK ≤ next then Op.throw .diskErr else pure (.next next)

/-- The first free slot of a directory. -/
def findSlot (cluster : Nat) : DevOp δ (Nat × Nat × Buf) :=
  Op.loopM (findSlotStep vol) LOOP_BOUND cluster

/-- The 11 name bytes that `f_open` and `f_rename` write: the part before the first dot and up to
three bytes behind it, padded with spaces. -/
def encodeName (name : Bytes) : Bytes :=
  let dot := name.findIdx? (· == 0x2E)
  let base := name.take (min (dot.getD name.length) 8)
  let ext := match dot with
    | some d => (name.drop (d + 1)).take 3
    | none => []
  base ++ List.replicate (8 - base.length) 0x20 ++ ext ++ List.replicate (3 - ext.length) 0x20

/-- Store a start cluster in the slot at `off`. -/
def storeStart (buf : Buf) (off cluster : Nat) : Buf :=
  (buf.store (off + 0x1A) (bytes16 (cluster % 65536))).store (off + 0x14)
    (bytes16 (cluster / 65536))

/-- A cluster, marked as the end of a chain. -/
def allocCluster : DevOp δ Nat := do
  let new ← vol.findFreeCluster
  vol.writeFatEntry new 0x0FFFFFFF
  pure new

/-- The branch of `f_open` for a name that was found. -/
def openExisting (flags parentCluster entryIdx : Nat) : DevOp δ File :=
  if flags &&& FA_CREATE_NEW ≠ 0 then Op.throw .exists
  else do
    let entry ← vol.readEntryData parentCluster entryIdx
    let handle : File := {
      size := FatVolume.sizeOf entry
      position := 0
      startCluster := startOf entry
      currentCluster := startOf entry
      sectorInCluster := 0
      byteInSector := 0
      flags
      dirSector := parentCluster
      dirOffset := entryIdx
      modified := false
      error := .ok }
    if flags &&& FA_CREATE_ALWAYS ≠ 0 then do
      releaseChain vol (startOf entry)
      pure { handle with size := 0, currentCluster := 0 }
    else pure handle

/-- The branch of `f_open` for a name that was not found. -/
def openMissing (flags dirCluster : Nat) (name : Bytes) : DevOp δ File :=
  if flags &&& (FA_CREATE_NEW ||| FA_CREATE_ALWAYS ||| FA_OPEN_ALWAYS) = 0 then Op.throw .noFile
  else do
    -- the cluster first, so that no entry without one is created
    let newCluster ← allocCluster vol
    let (destCluster, idx, buf) ← findSlot vol dirCluster
    let off := idx * DIR_SIZE
    let buf := buf.store off (encodeName name)
    let buf := buf.set (off + 0x0B) 0x20
    let buf := storeStart buf off newCluster
    vol.writeCluster destCluster buf
    pure {
      size := 0
      position := 0
      startCluster := newCluster
      currentCluster := newCluster
      sectorInCluster := 0
      byteInSector := 0
      flags
      dirSector := destCluster
      dirOffset := idx
      modified := true
      error := .ok }

/-- `f_open` on a mounted volume. -/
def openVol (path : Bytes) (flags : Nat) : DevOp δ File := do
  let (dirCluster, name) ← resolvePath vol path
  match ← vol.findEntryInDir dirCluster name with
  | some (parentCluster, entryIdx) => openExisting vol flags parentCluster entryIdx
  | none => openMissing vol flags dirCluster name

end

/-- Open the file at a path, or create it. -/
def fOpen (vol : Option FatVolume) (path : Bytes) (flags : Nat) : DevOp δ File :=
  withVol vol fun v => openVol v path flags

/-! ## `f_read` -/

/-- The sector under the cursor. -/
def cursorLba (vol : FatVolume) (file : File) : Nat :=
  (vol.clusterToLba file.currentCluster + file.sectorInCluster) % 2 ^ 32

/-- The cursor after `n` bytes of its sector. -/
def File.advance (file : File) (n : Nat) : File :=
  { file with
    byteInSector := (file.byteInSector + n) % 2 ^ 16
    position := (file.position + n) % 2 ^ 32 }

/-- The cursor at the start of the next sector. -/
def File.nextSector (file : File) : File :=
  { file with byteInSector := 0, sectorInCluster := (file.sectorInCluster + 1) % 2 ^ 16 }

/-- The `n` bytes of the sector from `off` on. -/
def sectorBytes (sector : Sector) (off n : Nat) : Bytes :=
  (List.range n).map fun i => sector.buf (off + i)

/-- The end of a round of `f_read` and `f_write`: go to the next sector or cluster when the sector
is used up. The two calls differ at the end of the chain. -/
def advanceWith {σ β : Type} (vol : Option FatVolume) (atEnd : File → FileOp δ (Flow σ β))
    (acc : σ) : FileOp δ (Flow σ β) := do
  let file ← getFile
  if SECTOR_SIZE ≤ file.byteInSector then do
    updateFile File.nextSector
    let spc ← onVol vol fun v => pure v.sectorsPerCluster
    if spc ≤ (file.sectorInCluster + 1) % 2 ^ 16 then do
      updateFile fun f => { f with sectorInCluster := 0 }
      let next ← onVol vol fun v => v.readFatEntry file.currentCluster
      if END_MARK ≤ next then atEnd file
      else do
        updateFile fun f => { f with currentCluster := next }
        pure (.next acc)
    else pure (.next acc)
  else pure (.next acc)

/-- The end of a round of `f_read`: the loop is left at the end of the chain. -/
def readAdvance (vol : Option FatVolume) (acc : Bytes) : FileOp δ (Flow Bytes Bytes) :=
  advanceWith vol (fun _ => do
    updateFile fun f => { f with currentCluster := 0 }
    pure (.done acc)) acc

/-- One round of `f_read`: copy from the sector under the cursor. -/
def readStep (vol : Option FatVolume) (toRead : Nat) (acc : Bytes) : FileOp δ (Flow Bytes Bytes) :=
  if acc.length < toRead then do
    let file ← getFile
    let sector ← onVol vol fun v => readSector (cursorLba v file)
    let toCopy := min (wsub SECTOR_SIZE file.byteInSector) (toRead - acc.length)
    updateFile fun f => f.advance toCopy
    readAdvance vol (acc ++ sectorBytes sector file.byteInSector toCopy)
  else pure (.done acc)

/-- `f_read` into a buffer of `len` bytes; the bytes read. -/
def fRead (vol : Option FatVolume) (len : Nat) : FileOp δ Bytes := do
  let file ← getFile
  if file.flags &&& FA_READ = 0 then deny
  else
    let remaining := (file.size + (2 ^ 32 - file.position)) % 2 ^ 32
    let toRead := min len remaining
    if toRead = 0 then pure []
    else do
      let _ ← onVol vol fun v => pure v.clusterSize
      Op.loopM (readStep vol toRead) LOOP_BOUND []

/-! ## `f_write` -/

section

variable (vol : Option FatVolume)

/-- The end of a round of `f_write`, with a new cluster at the end of the chain. -/
def writeAdvance (written : Nat) : FileOp δ (Lib.Loop.Flow Nat Nat) :=
  advanceWith vol (fun file => do
    let new ← onVol vol fun v => allocCluster v
    onVol vol fun v => v.writeFatEntry file.currentCluster new
    updateFile fun f => { f with currentCluster := new }
    pure (.next written)) written

/-- The handle after `n` bytes were written: the cursor moves, and the size with it at the end. -/
def File.wrote (file : File) (n : Nat) : File :=
  let file := file.advance n
  { file with
    size := if file.size < file.position then file.position else file.size
    modified := true }

/-- One round of `f_write`: read, modify and write the sector under the cursor. -/
def writeStep (buf : Bytes) (written : Nat) : FileOp δ (Lib.Loop.Flow Nat Nat) :=
  if written < buf.length then do
    let file ← getFile
    let sector ← onVol vol fun v => readSector (cursorLba v file)
    let space := min (wsub SECTOR_SIZE file.byteInSector) (buf.length - written)
    let chunk := (buf.drop written).take space
    onVol vol fun v =>
      writeSector (cursorLba v file) (Sector.ofBuf (sector.buf.store file.byteInSector chunk))
    updateFile fun f => f.wrote space
    writeAdvance vol (written + space)
  else pure (.done written)

/-- Allocate the first cluster when the cursor has none. -/
def ensureCluster : FileOp δ Unit := do
  let file ← getFile
  if file.currentCluster = 0 then do
    let new ← onVol vol fun v => allocCluster v
    updateFile fun f => { f with startCluster := new, currentCluster := new }
  else pure ()

/-- `f_write`; the number of bytes written. -/
def fWrite (buf : Bytes) : FileOp δ Nat := do
  let file ← getFile
  if file.flags &&& FA_WRITE = 0 then deny
  else if buf = [] then pure 0
  else do
    ensureCluster vol
    Op.loopM (writeStep vol buf) LOOP_BOUND 0

end

/-! ## `f_lseek` -/

/-- `n` steps along the chain from `clu`; `none` when the chain ends on the way. -/
def seekChain (vol : FatVolume) (clu : Nat) : Nat → DevOp δ (Option Nat)
  | 0 => pure (some clu)
  | n + 1 => do
      let next ← vol.readFatEntry clu
      if END_MARK ≤ next then pure none else seekChain vol next n

/-- Move the cursor, along the chain from its start. -/
def fLseek (vol : Option FatVolume) (offset : Nat) : FileOp δ Unit := do
  let file ← getFile
  if file.size < offset ∧ file.flags &&& FA_WRITE = 0 then deny
  else if offset = file.position then pure ()
  else do
    let clusterSize ← onVol vol fun v => pure v.clusterSize
    match ← onVol vol fun v => seekChain v file.startCluster (offset / clusterSize) with
    | none =>
        -- the chain ended early
        updateFile fun f => { f with
          currentCluster := 0
          sectorInCluster := 0
          byteInSector := 0
          position := min (offset / clusterSize) (2 ^ 32 - 1) }
    | some clu =>
        updateFile fun f => { f with
          currentCluster := clu
          sectorInCluster := offset % clusterSize / SECTOR_SIZE
          byteInSector := offset % clusterSize % SECTOR_SIZE
          position := offset }

/-! ## `f_truncate` -/

/-- Cut the file at the cursor and release what is behind. -/
def fTruncate (vol : Option FatVolume) : FileOp δ Unit := do
  let file ← getFile
  if file.flags &&& FA_WRITE = 0 then deny
  else do
    let clu ← onVol vol fun v => v.readFatEntry file.currentCluster
    onVol vol fun v => releaseChain v clu
    if 2 ≤ file.currentCluster then
      onVol vol fun v => v.writeFatEntry file.currentCluster 0x0FFFFFFF
    else pure ()
    updateFile fun f => { f with size := f.position, modified := true }

/-! ## `f_expand` -/

section

variable (vol : FatVolume)

/-- One round of the chain count: the cluster and the count so far. -/
def countStep : Nat × Nat → DevOp δ (Lib.Loop.Flow (Nat × Nat) Nat)
  | (clu, count) => do
      let next ← vol.readFatEntry clu
      if END_MARK ≤ next then pure (.done count) else pure (.next (next, (count + 1) % 2 ^ 32))

/-- The number of clusters from `start` on. -/
def countChain (start : Nat) : DevOp δ Nat :=
  Op.loopM (countStep vol) LOOP_BOUND (start, 1)

/-- One round of the walk to the end of a chain. -/
def tailStep (tail : Nat) : DevOp δ (Lib.Loop.Flow Nat Nat) := do
  let next ← vol.readFatEntry tail
  if END_MARK ≤ next then pure (.done tail) else pure (.next next)

/-- The last cluster of a chain. -/
def chainTail (start : Nat) : DevOp δ Nat :=
  Op.loopM (tailStep vol) LOOP_BOUND start

/-- Append `n` clusters behind `tail`. -/
def appendClusters : Nat → Nat → DevOp δ Unit
  | _, 0 => pure ()
  | tail, n + 1 => do
      let new ← allocCluster vol
      vol.writeFatEntry tail new
      appendClusters new n

end

/-- Add `toAdd` clusters to the chain of the handle. -/
def growChain (vol : Option FatVolume) (start toAdd : Nat) : FileOp δ Unit :=
  if start = 0 then do
    let new ← onVol vol fun v => allocCluster v
    updateFile fun f => { f with startCluster := new, currentCluster := new }
    onVol vol fun v => appendClusters v new (toAdd - 1)
  else
    onVol vol fun v => do
      let tail ← chainTail v start
      appendClusters v tail toAdd

/-- Make the file larger, with new clusters behind its chain. -/
def fExpand (vol : Option FatVolume) (size : Nat) : FileOp δ Unit := do
  let file ← getFile
  if file.flags &&& FA_WRITE = 0 then deny
  else do
    let clusterSize ← onVol vol fun v => pure v.clusterSize
    if size ≤ file.size then pure ()
    else do
      let currentClusters ← onVol vol fun v =>
        if file.startCluster = 0 then pure 0 else countChain v file.startCluster
      let needed := max ((size + clusterSize + (2 ^ 32 - 1)) % 2 ^ 32 / clusterSize) 1
      let toAdd := needed - currentClusters
      if toAdd = 0 then pure ()
      else do
        growChain vol file.startCluster toAdd
        updateFile fun f => { f with size, modified := true }

/-! ## `f_sync` and the accessors -/

/-- `f_sync`, without the interrupt flag it toggles around the transfers. The slot is addressed in
the first sector of its cluster. -/
def fSync (vol : Option FatVolume) : FileOp δ Unit := do
  let file ← getFile
  if file.modified then do
    let lba ← onVol vol fun v => pure (v.clusterToLba file.dirSector)
    let off := file.dirOffset * DIR_SIZE
    let sector ← onVol vol fun _ => readSector lba
    if SECTOR_SIZE < off + DIR_SIZE then Op.panic
    else do
      let buf := sector.buf.store (off + 0x1C) (bytes32 file.size)
      let buf := storeStart buf off file.startCluster
      onVol vol fun _ => writeSector lba (Sector.ofBuf buf)
      updateFile fun f => { f with modified := false }
  else pure ()

/-- The position. -/
def fTell (file : File) : Nat := file.position

/-- The position is at the end. -/
def fEof (file : File) : Bool := decide (file.size ≤ file.position)

/-- The size. -/
def fSize (file : File) : Nat := file.size

/-- An error was recorded. -/
def fError (file : File) : Bool := decide (file.error ≠ .ok)

end PlanckOS.Fat32
