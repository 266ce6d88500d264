import PlanckOS.Fat32.Manage
import PlanckOS.Lib.Follow

/-!
# Calls that return saw no failing transfer

The driver stops at the first sector transfer that fails. So a call that returns a value has only
made transfers that succeed, and runs in the same way on every device on which these succeed with
the same sectors. `Carries R` says that of single transfers between two devices, and `f_write` and
`f_sync` then follow themselves on the other device (`fWrite_follows`, `fSync_follows`).
-/

set_option autoImplicit false

namespace PlanckOS.Fat32

open Lib.Fallible FatVolume

section Devices

variable {δ δ' : Type} [BlockDevice δ] [BlockDevice δ'] {R : δ → δ' → Prop}

/-- Transfers that succeed on one device succeed on the other. -/
structure Carries (R : δ → δ' → Prop) : Prop where
  read : ∀ {s : δ} {t : δ'} {lba : Nat} {v : Sector} {s' : δ}, R s t →
    BlockDevice.readSector s lba = (some v, s') →
      ∃ t', BlockDevice.readSector t lba = (some v, t') ∧ R s' t'
  write : ∀ {s : δ} {t : δ'} {lba : Nat} {v : Sector} {s' : δ}, R s t →
    BlockDevice.writeSector s lba v = (true, s') →
      ∃ t', BlockDevice.writeSector t lba v = (true, t') ∧ R s' t'

/-- Handles that are equal on devices that are related. -/
def OnDevices (R : δ → δ' → Prop) (s : OpenFile δ) (t : OpenFile δ') : Prop :=
  R s.dev t.dev ∧ s.file = t.file

/-! ## Sectors and clusters -/

variable (hR : Carries R) {α : Type} {f : FatVolume → DevOp δ α} {g : FatVolume → DevOp δ' α}
include hR

theorem readSector_follows (lba : Nat) :
    Op.Follows R (readSector lba : DevOp δ Sector) (readSector lba) := by
  intro s t h
  rw [readSector]
  match hread : BlockDevice.readSector s lba with
  | (some v, s') =>
    obtain ⟨t', ht, h'⟩ := hR.read h hread
    refine ⟨t', ?_, h'⟩
    rw [readSector, ht]
  | (none, s') => trivial

theorem writeSector_follows (lba : Nat) (v : Sector) :
    Op.Follows R (writeSector lba v : DevOp δ Unit) (writeSector lba v) := by
  intro s t h
  rw [writeSector]
  match hwrite : BlockDevice.writeSector s lba v with
  | (true, s') =>
    obtain ⟨t', ht, h'⟩ := hR.write h hwrite
    refine ⟨t', ?_, h'⟩
    rw [writeSector, ht]
  | (false, s') => trivial

theorem readFatEntry_follows (vol : FatVolume) (cluster : Nat) :
    Op.Follows R (vol.readFatEntry cluster : DevOp δ Nat) (vol.readFatEntry cluster) :=
  (readSector_follows hR _).bind fun _ => follows_pure _

theorem writeFatEntry_follows (vol : FatVolume) (cluster val : Nat) :
    Op.Follows R (vol.writeFatEntry cluster val : DevOp δ Unit) (vol.writeFatEntry cluster val) :=
  (readSector_follows hR _).bind fun _ => follows_forUpto (fun _ => writeSector_follows hR _ _) _

theorem findFreeFrom_follows (vol : FatVolume) (c n : Nat) :
    Op.Follows R (vol.findFreeFrom c n : DevOp δ Nat) (vol.findFreeFrom c n) := by
  induction n generalizing c with
  | zero => exact follows_throw _ _
  | succ n ih =>
    refine (readFatEntry_follows hR vol c).bind fun entry => ?_
    split_ifs
    · exact follows_pure _
    · exact ih _

theorem allocCluster_follows (vol : FatVolume) :
    Op.Follows R (allocCluster vol : DevOp δ Nat) (allocCluster vol) :=
  (findFreeFrom_follows hR vol _ _).bind fun _ =>
    (writeFatEntry_follows hR vol _ _).bind fun _ => follows_pure _

omit [BlockDevice δ] [BlockDevice δ'] hR in
theorem withVol_follows (vol : Option FatVolume) (h : ∀ v, Op.Follows R (f v) (g v)) :
    Op.Follows R (withVol vol f) (withVol vol g) := by
  cases vol with
  | none => exact follows_throw _ _
  | some v => exact h v

/-! ## Calls on handles -/

section

variable (vol : Option FatVolume)

omit [BlockDevice δ] [BlockDevice δ'] hR in
theorem onVol_follows (h : ∀ v, Op.Follows R (f v) (g v)) :
    Op.Follows (OnDevices R) (onVol vol f) (onVol vol g) := by
  rintro s t ⟨hdev, hfile⟩
  have hrun := withVol_follows vol h hdev
  rw [onVol]
  cases hf : withVol vol f s.dev with
  | ok a d =>
    rw [hf] at hrun
    obtain ⟨d', hg, hd⟩ := hrun
    refine ⟨⟨d', t.file⟩, ?_, hd, hfile⟩
    rw [onVol, hg]
  | err e d => trivial
  | fault w => trivial

omit [BlockDevice δ] [BlockDevice δ'] hR in
theorem getFile_bind_follows {f : File → FileOp δ α} {g : File → FileOp δ' α}
    (h : ∀ file, Op.Follows (OnDevices R) (f file) (g file)) :
    Op.Follows (OnDevices R) (getFile >>= f) (getFile >>= g) := by
  intro s t hst
  show ((f s.file) s).Sat _ _
  refine (h s.file hst).mono ?_ fun _ _ h => h
  rintro a s' ⟨t', hg, h'⟩
  rw [hst.2] at hg
  exact ⟨t', hg, h'⟩

omit [BlockDevice δ] [BlockDevice δ'] hR in
theorem updateFile_follows (f : File → File) :
    Op.Follows (OnDevices R) (updateFile f : FileOp δ Unit) (updateFile f) :=
  fun _ t h => ⟨⟨t.dev, f t.file⟩, rfl, h.1, congrArg f h.2⟩

theorem writeAdvance_follows (written : Nat) :
    Op.Follows (OnDevices R) (writeAdvance vol written : FileOp δ _)
      (writeAdvance vol written) := by
  refine getFile_bind_follows fun file => ?_
  split_ifs
  · refine (updateFile_follows _).bind fun _ =>
      (onVol_follows vol fun v => follows_pure _).bind fun spc => ?_
    split_ifs
    · refine (updateFile_follows _).bind fun _ =>
        (onVol_follows vol fun v => readFatEntry_follows hR v _).bind fun next => ?_
      split_ifs
      · exact (onVol_follows vol fun v => allocCluster_follows hR v).bind fun _ =>
          (onVol_follows vol fun v => writeFatEntry_follows hR v _ _).bind fun _ =>
            (updateFile_follows _).bind fun _ => follows_pure _
      · exact (updateFile_follows _).bind fun _ => follows_pure _
    · exact follows_pure _
  · exact follows_pure _

theorem fWrite_follows (buf : Bytes) :
    Op.Follows (OnDevices R) (fWrite vol buf : FileOp δ Nat) (fWrite vol buf) := by
  refine getFile_bind_follows fun file => ?_
  split_ifs
  · exact fun _ _ _ => trivial
  · exact follows_pure _
  · refine Op.Follows.bind (getFile_bind_follows fun file => ?_) fun _ =>
      follows_loopM (fun written => ?_) _ _
    · split_ifs
      · exact (onVol_follows vol fun v => allocCluster_follows hR v).bind fun _ =>
          updateFile_follows _
      · exact follows_pure _
    · rw [writeStep, writeStep]
      split_ifs
      · exact getFile_bind_follows fun file =>
          (onVol_follows vol fun v => readSector_follows hR _).bind fun _ =>
            (onVol_follows vol fun v => writeSector_follows hR _ _).bind fun _ =>
              (updateFile_follows _).bind fun _ => writeAdvance_follows hR vol _
      · exact follows_pure _

theorem fSync_follows : Op.Follows (OnDevices R) (fSync vol : FileOp δ Unit) (fSync vol) := by
  refine getFile_bind_follows fun file => ?_
  split_ifs
  · refine (onVol_follows vol fun v => follows_pure _).bind fun lba =>
      (onVol_follows vol fun _ => readSector_follows hR _).bind fun sector => ?_
    show Op.Follows _ (ite _ _ _) (ite _ _ _)
    split_ifs
    · exact follows_panic _
    · exact (onVol_follows vol fun _ => writeSector_follows hR _ _).bind fun _ =>
        updateFile_follows _
  · exact follows_pure _

end

end Devices

end PlanckOS.Fat32
