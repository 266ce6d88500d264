import PlanckOS.Fat32.Manage

/-!
# Lookups leave the disk alone

Following the table, reading a cluster, looking for a free cluster or a free slot, and resolving a
path change no sector, whatever the table and the directories hold (`resolvePath_readOnly`,
`findEntryInDir_readOnly`, `findSlot_readOnly`). So a call that gives up during its lookup has
changed nothing.
-/

set_option autoImplicit false

namespace PlanckOS.Fat32

open Lib.Fallible FatVolume

variable (vol : FatVolume)

theorem readSector_readOnly (lba : Nat) : (readSector lba : DevOp Disk Sector).ReadOnly :=
  fun _ => rfl

theorem readFatEntry_readOnly (c : Nat) : (vol.readFatEntry c : DevOp Disk Nat).ReadOnly :=
  (readSector_readOnly _).bind fun _ => Op.readOnly_pure _

theorem readSectors_readOnly (lba n : Nat) : (readSectors lba n : DevOp Disk Buf).ReadOnly := by
  induction n with
  | zero => exact Op.readOnly_pure _
  | succ n ih =>
    exact ih.bind fun _ => (readSector_readOnly _).bind fun _ => Op.readOnly_pure _

theorem readCluster_readOnly (c : Nat) : (vol.readCluster c : DevOp Disk Buf).ReadOnly :=
  readSectors_readOnly _ _

theorem readEntryData_readOnly (c i : Nat) : (vol.readEntryData c i : DevOp Disk Entry).ReadOnly :=
  (readCluster_readOnly vol c).bind fun _ => Op.readOnly_pure _

/-! ## Searches -/

theorem findEntryInDir_readOnly (c : Nat) (target : Bytes) :
    (vol.findEntryInDir c target : DevOp Disk _).ReadOnly := by
  refine Op.readOnly_loopM (fun c => ?_) _ c
  rw [findEntryStep]
  split
  · refine (readCluster_readOnly vol c).bind fun buf => ?_
    cases scanSlots buf target 0 vol.slotsPerCluster with
    | found idx => exact Op.readOnly_pure _
    | stopped => exact Op.readOnly_pure _
    | panic => exact fun _ => trivial
    | exhausted => exact (readFatEntry_readOnly vol c).bind fun _ => Op.readOnly_pure _
  · exact Op.readOnly_pure _

theorem findSlot_readOnly (c : Nat) : (findSlot vol c : DevOp Disk _).ReadOnly := by
  refine Op.readOnly_loopM (fun c => ?_) _ c
  rw [findSlotStep]
  refine (readCluster_readOnly vol c).bind fun buf => ?_
  cases freeSlot buf 0 vol.slotsPerCluster with
  | some idx => exact Op.readOnly_pure _
  | none =>
    refine (readFatEntry_readOnly vol c).bind fun next => ?_
    split
    · exact Op.readOnly_throw _
    · exact Op.readOnly_pure _

theorem findFreeFrom_readOnly (c n : Nat) : (vol.findFreeFrom c n : DevOp Disk Nat).ReadOnly := by
  induction n generalizing c with
  | zero => exact Op.readOnly_throw _
  | succ n ih =>
    refine (readFatEntry_readOnly vol c).bind fun entry => ?_
    split
    · exact Op.readOnly_pure _
    · exact ih (c + 1)

/-! ## Paths -/

theorem resolveFrom_readOnly (c : Nat) (components : List Bytes) :
    (resolveFrom vol c components : DevOp Disk _).ReadOnly := by
  induction components generalizing c with
  | nil => exact Op.readOnly_pure _
  | cons component rest ih =>
    cases rest with
    | nil => exact Op.readOnly_pure _
    | cons component' rest =>
      rw [resolveFrom]
      · split
        · exact ih c
        · refine (findEntryInDir_readOnly vol c component).bind fun r => ?_
          cases r with
          | some p => exact (readEntryData_readOnly vol p.1 p.2).bind fun e => ih (startOf e)
          | none => exact Op.readOnly_throw _
      · simp

theorem resolvePath_readOnly (path : Bytes) : (resolvePath vol path : DevOp Disk _).ReadOnly := by
  rw [resolvePath]
  split
  · exact Op.readOnly_pure _
  · exact resolveFrom_readOnly vol _ _

end PlanckOS.Fat32
