import PlanckOS.Lib.Fallible
import PlanckOS.Lib.Word

/-!
# Block devices and sector buffers

The trait `BlockDevice` of `src/hal/block.rs` as a class over the device's state, and the
reliable disk, whose reads return what was written last. The FAT32 driver is written against the
class. Buffers are functions from indices to bytes; a sector has exactly 512 of them.
-/

set_option autoImplicit false

namespace PlanckOS.Fat32

open Lib.Word Lib.Fallible

/-- `FError` of `src/hal/fat32.rs`. -/
inductive FError where
  | ok
  | diskErr
  | noFile
  | noPath
  | notFound
  | denied
  | exists
  | invalid
  | writeProtected
  | mkfsAborted
  | timeout
  | locked
  | notEnabled
  | tooManyOpenFiles
  | invalidParameter
  deriving DecidableEq, Repr

def SECTOR_SIZE : Nat := 512

/-! ## Buffers -/

/-- A byte buffer. -/
abbrev Buf := Nat → UInt8

section

variable (buf : Buf) (off : Nat)

/-- `buf[off..off + bytes.len()].copy_from_slice(bytes)`. -/
def Buf.store (bytes : Bytes) : Buf :=
  fun k => if off ≤ k ∧ k < off + bytes.length then bytes.getD (k - off) 0 else buf k

/-- `buf[off] = b`. -/
def Buf.set (b : UInt8) : Buf := fun k => if k = off then b else buf k

/-- `u16::from_le_bytes` at `off`. -/
def Buf.le16 : Nat := leVal (fun i => buf (off + i)) 2

/-- `u32::from_le_bytes` at `off`. -/
def Buf.le32 : Nat := leVal (fun i => buf (off + i)) 4

end

/-- `to_le_bytes` of a `u16`. -/
def bytes16 (w : Nat) : Bytes := [leByte w 0, leByte w 1]

theorem bytes16_length (w : Nat) : (bytes16 w).length = 2 := rfl

/-- `to_le_bytes` of a `u32`. -/
def bytes32 (w : Nat) : Bytes := [leByte w 0, leByte w 1, leByte w 2, leByte w 3]

/-! ## Sectors -/

/-- `[u8; 512]`. -/
abbrev Sector := Fin 512 → UInt8

/-- The sector as a buffer. -/
def Sector.buf (s : Sector) : Buf := fun i => if h : i < 512 then s ⟨i, h⟩ else 0

/-- The first 512 bytes of a buffer. -/
def Sector.ofBuf (b : Buf) : Sector := fun i => b i

theorem Sector.buf_ofBuf (b : Buf) {i : Nat} (h : i < 512) : (Sector.ofBuf b).buf i = b i := by
  rw [Sector.buf, dif_pos h]
  rfl

theorem Sector.ext_buf {s t : Sector} (h : ∀ i, i < 512 → s.buf i = t.buf i) : s = t := by
  funext i
  have hi := h i i.isLt
  rwa [Sector.buf, Sector.buf, dif_pos i.isLt, dif_pos i.isLt] at hi

/-! ## Devices -/

/-- `BlockDevice`: sector transfers may fail, and a device may change by any transfer. -/
class BlockDevice (δ : Type) where
  readSector : δ → Nat → Option Sector × δ
  writeSector : δ → Nat → Sector → Bool × δ
  sectorCount : δ → Nat

/-- A disk that never fails and returns the sector written last. -/
abbrev Disk := Nat → Sector

instance : BlockDevice Disk where
  readSector d lba := (some (d lba), d)
  writeSector d lba s := (true, fun l => if l = lba then s else d l)
  sectorCount _ := 2 ^ 32

/-- A driver operation on a device. -/
abbrev DevOp (δ : Type) := Op δ FError

variable {δ : Type} [BlockDevice δ]

/-- `if !dev.read_sector(lba, &mut buf) { return Err(DiskErr) }`. -/
def readSector (lba : Nat) : DevOp δ Sector := fun d =>
  match BlockDevice.readSector d lba with
  | (some s, d') => .ok s d'
  | (none, d') => .err .diskErr d'

/-- `if !dev.write_sector(lba, &buf) { return Err(DiskErr) }`. -/
def writeSector (lba : Nat) (s : Sector) : DevOp δ Unit := fun d =>
  match BlockDevice.writeSector d lba s with
  | (true, d') => .ok () d'
  | (false, d') => .err .diskErr d'

@[simp] theorem readSector_disk (d : Disk) (lba : Nat) : readSector lba d = .ok (d lba) d := rfl

@[simp] theorem writeSector_disk (d : Disk) (lba : Nat) (s : Sector) :
    writeSector lba s d = .ok () (fun l => if l = lba then s else d l) := rfl

end PlanckOS.Fat32
