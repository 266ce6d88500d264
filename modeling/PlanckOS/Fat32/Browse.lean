import PlanckOS.Fat32.Manage

/-!
# Directory operations of `src/hal/fat32.rs`

`f_opendir`, `f_readdir`, `f_findfirst`, `f_getlabel`, `f_setlabel`, `f_chdir` and `f_getcwd`. A
directory handle (`Dir`) is a place in a directory: a cluster and the index of a slot there.
`f_readdir` runs on the device together with the handle (`OpenDir`), like the operations on open
files.
-/

set_option autoImplicit false

namespace PlanckOS.Fat32

open Lib.Fallible Lib.Loop FatVolume List

/-- The handle of an open directory. -/
structure Dir where
  startCluster : Nat
  currentCluster : Nat
  sectorInCluster : Nat
  entryIndex : Nat
  ended : Bool
  pattern : Bytes
  patLen : Nat
  deriving DecidableEq, Repr

/-- A device and a directory handle on it. -/
structure OpenDir (δ : Type) where
  dev : δ
  dir : Dir

/-- An operation on a directory handle. -/
abbrev DirOp (δ : Type) := Op (OpenDir δ) FError

variable {δ : Type} [BlockDevice δ]

/-- An operation on the device alone. -/
def onDev {α : Type} (x : DevOp δ α) : DirOp δ α := fun s =>
  match x s.dev with
  | .ok a d => .ok a { s with dev := d }
  | .err e d => .err e { s with dev := d }
  | .fault w => .fault w

/-- Change the handle. -/
def updateDir (f : Dir → Dir) : DirOp δ Unit := Op.modify fun s => { s with dir := f s.dir }

/-- The handle. -/
def getDir : DirOp δ Dir := fun s => .ok s.dir s

/-! ## Patterns -/

/-- The loop behind a `*`: try the rest of the pattern at every position of the name. -/
def matchStar (name : Bytes) (rest : Nat → Option Bool) : Nat → Nat → Option Bool
  | n, 0 => rest n
  | n, fuel + 1 =>
      if name.getD n 0 ≠ 0 then
        match rest n with
        | some false => matchStar name rest (n + 1) fuel
        | result => result
      else rest n

/-- `match_pattern_inner` from position `n` of the name on; `none` is an index out of bounds. The
loop of `match_pattern` is the same, from the first position on. -/
def matchPatternInner (name : Bytes) : Nat → Bytes → Option Bool
  | n, [] => name[n]?.map fun b => b == 0 || b == 0x20
  | n, c :: pat =>
      -- `*`
      if c = 0x2A then matchStar name (fun n => matchPatternInner name n pat) n (11 - n)
      -- `?`
      else if c = 0x3F then
        match name[n]? with
        | none => none
        | some b => if b = 0 ∨ b = 0x20 then some false else matchPatternInner name (n + 1) pat
      else
        match name[n]? with
        | none => none
        | some b => if b ≠ c then some false else matchPatternInner name (n + 1) pat

def matchPattern (name pattern : Bytes) (patLen : Nat) : Option Bool :=
  if patLen = 0 then some true else matchPatternInner name 0 (pattern.take patLen)

/-! ## `f_opendir` and `f_readdir` -/

def fOpendir (vol : Option FatVolume) (path : Bytes) : DevOp δ Dir :=
  withVol vol fun vol => do
    let (dirCluster, _) ← resolvePath vol path
    pure {
      startCluster := dirCluster
      currentCluster := dirCluster
      sectorInCluster := 0
      entryIndex := 0
      ended := false
      pattern := replicate 11 0
      patLen := 0 }

def fFindfirst (vol : Option FatVolume) (path pattern : Bytes) : DevOp δ Dir := do
  let dir ← fOpendir vol path
  let patLen := min pattern.length 11
  pure { dir with pattern := pattern.take patLen ++ dir.pattern.drop patLen, patLen }

/-- Behind the last slot of a cluster go to the next one; whether there is one. -/
def nextDirCluster (vol : FatVolume) : DirOp δ Bool := do
  let dir ← getDir
  if vol.slotsPerCluster ≤ dir.entryIndex then do
    updateDir fun dir => { dir with entryIndex := 0, sectorInCluster := 0 }
    let next ← onDev (vol.readFatEntry dir.currentCluster)
    if END_MARK ≤ next then do
      updateDir fun dir => { dir with ended := true }
      pure false
    else do
      updateDir fun dir => { dir with currentCluster := next }
      pure true
  else pure true

/-- What `f_readdir` does with the slot it has read. -/
def readdirEntry (dir : Dir) (entry : Entry) : DirOp δ (Flow Unit (Option Bytes)) :=
  if entry 0 = 0 then do
    updateDir fun dir => { dir with ended := true }
    pure (.done none)
  else if entry 0 = 0xE5 ∨ attrOf entry = ATTR_LFN ∨ attrOf entry &&& ATTR_VOLUME ≠ 0 then
    pure (.next ())
  else
    match readDirEntryName entry with
    | none => pure (.next ())
    | some name =>
        match matchPattern name dir.pattern dir.patLen with
        | none => Op.panic
        | some true => pure (.done (some name))
        | some false => pure (.next ())

/-- One round of `f_readdir`. -/
def readdirStep (vol : FatVolume) (_ : Unit) : DirOp δ (Flow Unit (Option Bytes)) := do
  let dir ← getDir
  if dir.ended then pure (.done none)
  else do
    if ← nextDirCluster vol then do
      let dir ← getDir
      let buf ← onDev (vol.readCluster dir.currentCluster)
      updateDir fun dir => { dir with entryIndex := (dir.entryIndex + 1) % 2 ^ 16 }
      readdirEntry dir (entryAt buf dir.entryIndex)
    else pure (.done none)

/-- `f_readdir`: the next name, or `none` for `Ok(false)`. -/
def fReaddir (vol : Option FatVolume) : DirOp δ (Option Bytes) :=
  match vol with
  | none => Op.throw .notEnabled
  | some vol => Op.loopM (readdirStep vol) LOOP_BOUND ()

/-! ## `f_getlabel` -/

/-- The label in a slot: its name bytes without the spaces, padded with zeros to 12 bytes. -/
def labelOf (e : Entry) : Bytes :=
  let label := ((range 11).map e).filter (· != 0x20)
  label ++ replicate (12 - label.length) 0

/-- How the scan of one cluster of the root directory ends. -/
inductive LabelScan where
  | stopped
  | found (label : Bytes)
  | exhausted
  deriving DecidableEq, Repr

/-- The slot loop over one cluster: `n` slots from `idx` on. -/
def scanLabel (buf : Buf) : Nat → Nat → LabelScan
  | _, 0 => .exhausted
  | idx, n + 1 =>
      let entry := entryAt buf idx
      if entry 0 = 0 then .stopped
      else if entry 0 = 0xE5 then scanLabel buf (idx + 1) n
      else if attrOf entry = ATTR_VOLUME then .found (labelOf entry)
      else scanLabel buf (idx + 1) n

/-- One round of `f_getlabel`. At a slot that was never used the caller's buffer stays as it was. -/
def getlabelStep (vol : FatVolume) (label : Bytes) (clu : Nat) :
    DevOp δ (Lib.Loop.Flow Nat Bytes) := do
  let buf ← vol.readCluster clu
  match scanLabel buf 0 vol.slotsPerCluster with
  | .stopped => pure (.done label)
  | .found found => pure (.done found)
  | .exhausted => do
      let next ← vol.readFatEntry clu
      if END_MARK ≤ next then pure (.done (replicate 12 0)) else pure (.next next)

/-- `f_getlabel`; the new content of the caller's buffer `label`. -/
def fGetlabel (vol : Option FatVolume) (label : Bytes) : DevOp δ Bytes :=
  withVol vol fun vol => Op.loopM (getlabelStep vol label) LOOP_BOUND vol.rootCluster

/-! ## `f_setlabel` -/

/-- Where the scan of one cluster of the root directory puts the label. -/
inductive LabelPlace where
  | create (idx : Nat)
  | overwrite (idx : Nat)
  | exhausted (foundSlot : Bool)
  deriving DecidableEq, Repr

/-- The slot loop over one cluster: `n` slots from `idx` on. Once a deleted slot was seen, only the
attribute byte is looked at. -/
def placeLabel (buf : Buf) : Bool → Nat → Nat → LabelPlace
  | foundSlot, _, 0 => .exhausted foundSlot
  | foundSlot, idx, n + 1 =>
      let entry := entryAt buf idx
      if entry 0 = 0 ∧ foundSlot = false then .create idx
      else if entry 0 = 0xE5 ∧ foundSlot = false then placeLabel buf true (idx + 1) n
      else if attrOf entry = ATTR_VOLUME then .overwrite idx
      else placeLabel buf foundSlot (idx + 1) n

/-- The label, padded with spaces. -/
def labelBytes (label : Bytes) : Bytes :=
  label.take 11 ++ replicate (11 - label.length) 0x20

/-- One round of `f_setlabel`. A deleted slot that was found is not used at the end. -/
def setlabelStep (vol : FatVolume) (label : Bytes) :
    Nat × Bool → DevOp δ (Lib.Loop.Flow (Nat × Bool) Unit)
  | (clu, foundSlot) => do
      let buf ← vol.readCluster clu
      match placeLabel buf foundSlot 0 vol.slotsPerCluster with
      | .create idx =>
          if label = [] then Op.panic
          else do
            let off := idx * DIR_SIZE
            let buf := (buf.store off (labelBytes label)).set (off + 0x0B) (UInt8.ofNat ATTR_VOLUME)
            vol.writeCluster clu buf
            pure (.done ())
      | .overwrite idx => do
          vol.writeCluster clu (buf.store (idx * DIR_SIZE) (labelBytes label))
          pure (.done ())
      | .exhausted foundSlot => do
          let next ← vol.readFatEntry clu
          if END_MARK ≤ next then pure (.done ()) else pure (.next (next, foundSlot))

def fSetlabel (vol : Option FatVolume) (label : Bytes) : DevOp δ Unit :=
  withVol vol fun vol => Op.loopM (setlabelStep vol label) LOOP_BOUND (vol.rootCluster, false)

/-! ## `f_chdir` and `f_getcwd` -/

/-- The device and the working directory, `CWD_CLUSTER` and `CWD_PATH`. -/
structure WorkDir (δ : Type) where
  dev : δ
  cluster : Nat
  path : Buf

/-- The working directory that `f_mount` sets, whatever the root cluster is. -/
def cwdInit (s : WorkDir δ) : WorkDir δ :=
  { s with cluster := 2, path := Buf.set (fun _ => 0) 0 0x2F }

/-- The new `CWD_PATH`. The old one is erased before its length is taken, so that a relative path is
not appended to it. -/
def cwdPath (path : Bytes) : Buf :=
  let cwd : Buf := fun _ => 0
  if path.head? = some 0x2F then cwd.store 0 (path.take 255)
  else
    let cwdLen := ((range 256).find? fun i => cwd i == 0).getD 0
    if 0 < cwdLen ∧ cwd (cwdLen - 1) ≠ 0x2F then
      (cwd.set cwdLen 0x2F).store (cwdLen + 1) (path.take (255 - cwdLen - 1))
    else cwd.store cwdLen (path.take (255 - cwdLen))

def fChdir (vol : Option FatVolume) (path : Bytes) : Op (WorkDir δ) FError Unit := fun s =>
  match (withVol vol fun vol => resolvePath vol path : DevOp δ _) s.dev with
  | .ok (cluster, _) d => .ok () { dev := d, cluster, path := cwdPath path }
  | .err e d => .err e { s with dev := d }
  | .fault w => .fault w

/-- The buffer after `f_getcwd`: as much of `CWD_PATH` as it can hold, with a 0 if there is room. -/
def fGetcwd (buf : Bytes) : Op (WorkDir δ) FError Bytes := fun s =>
  let len := ((range 256).find? fun i => s.path i == 0).getD 0
  if 0 < len then
    let copyLen := min len buf.length
    let buf := (range copyLen).map s.path ++ buf.drop copyLen
    .ok (if copyLen < buf.length then buf.set copyLen 0 else buf) s
  else if buf = [] then .fault .panic
  else
    let buf := buf.set 0 0x2F
    .ok (if 1 < buf.length then buf.set 1 0 else buf) s

end PlanckOS.Fat32
