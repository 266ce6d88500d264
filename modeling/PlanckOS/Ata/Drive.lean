import PlanckOS.Ata.Transfer
import PlanckOS.Fat32.Transfers

/-!
# The ATA drive as a block device

The channel under the FAT32 driver, with a record of the sector writes it was asked for: where,
which sector, and whether the drive accepted it. `acknowledged_iff` says for which answers of the
drive an acknowledged write was accepted, and that on a drive with such answers everything that an
`f_write` or `f_sync` wrote was accepted when the call succeeds. `write_error_ignored` is a drive
that reports an error behind the data.
-/

set_option autoImplicit false

namespace PlanckOS.Ata

open Lib.Fallible Fat32 List

/-! ## The device -/

/-- A sector write that was asked for. -/
structure WriteRecord where
  lba : Nat
  sector : Sector
  accepted : Bool

/-- A channel and what is connected to it, with the writes, the last one first. -/
structure AtaDrive where
  channel : AtaChannel
  bus : Bus
  writes : List WriteRecord

instance (ch : AtaChannel) (log : List Access) : Decidable (Accepted ch log) :=
  decidable_of_iff (∃ st ∈ statusAfterData ch log, idle st = true ∧ Clean st) Iff.rfl

/-- A transfer that does not come back has not succeeded. -/
instance : BlockDevice AtaDrive where
  readSector d lba :=
    match d.channel.readSector lba d.bus with
    | .ok sector bus => (sector, { d with bus := bus })
    | .err _ bus => (none, { d with bus := bus })
    | .fault _ => (none, d)
  writeSector d lba sector :=
    match d.channel.writeSector lba sector d.bus with
    | .ok done bus => (done, { d with
        bus := bus
        writes := ⟨lba, sector, done && decide (Accepted d.channel bus.log)⟩ :: d.writes })
    | .err _ bus => (false, { d with bus := bus, writes := ⟨lba, sector, false⟩ :: d.writes })
    | .fault _ => (false, d)
  sectorCount d := d.channel.sectorCount

/-- Everything that was written between two states was accepted. -/
def AllAccepted (d d' : AtaDrive) : Prop :=
  ∃ new, d'.writes = new ++ d.writes ∧ ∀ w ∈ new, w.accepted = true

/-- The answers of the drive are those of writes that finish cleanly, wherever one of them starts.
-/
def CleanDrive (bytes : Bytes) : Prop := ∀ rest, rest <:+ bytes → CleanFinish rest

/-! ## The answers are used up in their order -/

/-- Accesses use up the answers to come. -/
theorem consumes_covers (ch : AtaChannel) : CoversData ch fun b b' => b'.bytes <:+ b.bytes where
  refl _ := suffix_refl _
  trans h h' := h'.trans h
  byte b _ _ _ := ⟨tail_suffix b.bytes, suffix_refl _⟩
  word _ _ := ⟨suffix_refl _, suffix_refl _⟩

/-! ## Acknowledged writes -/

theorem CleanDrive.mono {bytes rest : Bytes} (h : CleanDrive bytes) (hrest : rest <:+ bytes) :
    CleanDrive rest := fun _ h' => h _ (h'.trans hrest)

/-- An acknowledged write was accepted exactly when the drive does not report an error or a fault
behind the data. -/
theorem writeSector_accepted_iff {ch : AtaChannel} {lba : Nat} {buf : Sector} {bus bus' : Bus}
    {r : Bool} (h : ch.writeSector lba buf bus = .ok r bus') :
    (r = true → Accepted ch bus'.log) ↔ CleanFinish bus.bytes := by
  rcases writeSector_ok h with ⟨rfl, hphase⟩ | ⟨rfl, rest, st, rest', hphase, hfirst, hidle, hst⟩
  · refine ⟨fun _ rest hrest => ?_, fun _ h => nomatch h⟩
    rw [hphase] at hrest
    cases hrest
  · constructor
    · intro haccepted rest₁ hrest r hr
      obtain ⟨st', hst', -, hclean⟩ := haccepted rfl
      rw [hphase, Option.some.injEq] at hrest
      rw [← hrest, hfirst, Option.some.injEq] at hr
      rw [hst, Option.some.injEq] at hst'
      rw [← hr]
      exact hst' ▸ hclean
    · intro hclean _
      exact ⟨st, hst, hidle, hclean rest hphase _ hfirst⟩

/-- Transfers that succeed keep the drive clean and the record without a rejected write. -/
theorem carries_accepted (d : AtaDrive) :
    Carries (Keeping fun d' : AtaDrive => CleanDrive d'.bus.bytes ∧ AllAccepted d d') where
  read := by
    rintro s t lba v s' ⟨rfl, hclean, new, hnew, haccepted⟩ hread
    refine ⟨s', hread, rfl, ?_⟩
    change (match s.channel.readSector lba s.bus with
      | .ok sector bus => (sector, { s with bus := bus })
      | .err _ bus => (none, { s with bus := bus })
      | .fault _ => (none, s)) = _ at hread
    have hconsumes := ((consumes_covers s.channel).readSector lba).leaves s.bus
    cases hrun : s.channel.readSector lba s.bus with
    | ok sector bus =>
      rw [hrun] at hread hconsumes
      cases hread
      exact ⟨hclean.mono hconsumes, new, hnew, haccepted⟩
    | err e bus =>
      rw [hrun] at hread
      cases hread
    | fault w =>
      rw [hrun] at hread
      cases hread
  write := by
    rintro s t lba v s' ⟨rfl, hclean, new, hnew, haccepted⟩ hwrite
    refine ⟨s', hwrite, rfl, ?_⟩
    change (match s.channel.writeSector lba v s.bus with
      | .ok done bus => (done, { s with
          bus := bus
          writes := ⟨lba, v, done && decide (Accepted s.channel bus.log)⟩ :: s.writes })
      | .err _ bus => (false, { s with bus := bus, writes := ⟨lba, v, false⟩ :: s.writes })
      | .fault _ => (false, s)) = _ at hwrite
    have hconsumes := ((consumes_covers s.channel).writeSector lba v).leaves s.bus
    cases hrun : s.channel.writeSector lba v s.bus with
    | ok done bus =>
      have hiff := writeSector_accepted_iff hrun
      rw [hrun] at hwrite hconsumes
      cases hwrite
      refine ⟨hclean.mono hconsumes, _ :: new, congrArg (cons _) hnew, ?_⟩
      have hlast := hiff.mpr (hclean _ (suffix_refl _)) rfl
      intro w hw
      rcases mem_cons.mp hw with rfl | hw
      · simpa using hlast
      · exact haccepted w hw
    | err e bus =>
      rw [hrun] at hwrite
      cases hwrite
    | fault w =>
      rw [hrun] at hwrite
      cases hwrite

theorem AllAccepted.refl (d : AtaDrive) : AllAccepted d d := ⟨[], rfl, fun _ h => nomatch h⟩

/-- A call on a handle that follows itself on every device. -/
theorem accepted_of_follows {α : Type} {x : FileOp AtaDrive α} {s s' : OpenFile AtaDrive} {a : α}
    (h : Op.Follows (OnDevices (Keeping fun d' => CleanDrive d'.bus.bytes ∧ AllAccepted s.dev d'))
      x x) (hclean : CleanDrive s.dev.bus.bytes) (hrun : x s = .ok a s') :
    AllAccepted s.dev s'.dev := by
  obtain ⟨t', -, ⟨-, -, haccepted⟩, -⟩ := h.ok ⟨⟨rfl, hclean, .refl _⟩, rfl⟩ hrun
  exact haccepted

/-- **An acknowledged sector write was accepted by the drive** exactly when the status it gives
behind the data, if it takes the data, reports neither an error nor a fault. On a drive whose
answers are all of that kind, every sector that an `f_write` or `f_sync` wrote was accepted when the
call returns `Ok`. -/
theorem acknowledged_iff (ch : AtaChannel) (lba : Nat) (buf : Sector) (bus : Bus)
    (vol : Option FatVolume) (s : OpenFile AtaDrive) :
    (∀ bus' r, ch.writeSector lba buf bus = .ok r bus' →
      ((r = true → Accepted ch bus'.log) ↔ CleanFinish bus.bytes)) ∧
    ∀ s', CleanDrive s.dev.bus.bytes →
      (∀ buf n, fWrite vol buf s = .ok n s' → AllAccepted s.dev s'.dev) ∧
      (fSync vol s = .ok () s' → AllAccepted s.dev s'.dev) := by
  refine ⟨fun bus' r => writeSector_accepted_iff, fun s' hclean => ⟨?_, ?_⟩⟩
  · exact fun buf n => accepted_of_follows (fWrite_follows (carries_accepted _) vol buf) hclean
  · exact accepted_of_follows (fSync_follows (carries_accepted _) vol) hclean

/-! ## Two drives -/

def sampleChannel : AtaChannel := ⟨0x1F0, 0xA0, 2 ^ 28⟩

/-- Answers for one sector write: the drive is ready, takes the data and is busy, and then gives the
status `st`. -/
def writeAnswers (st : UInt8) : Bytes :=
  [0x50, 0x50, 0x50, 0x50, 0x50, 0x58, 0x58, 0xD0, st, 0x04]

/-- The drive under `f_sync`: answers for a sector read, and then for the write. -/
def syncDrive (st : UInt8) : AtaDrive where
  channel := sampleChannel
  bus := ⟨[0x50, 0x58, 0x50] ++ writeAnswers st, replicate 256 0, []⟩
  writes := []

/-- A handle that was changed, with its slot at the start of the root directory. -/
def syncFile : File := ⟨1, 1, 3, 3, 0, 1, FA_WRITE, 2, 0, true, .ok⟩

/-- The status 0x50 behind the data: the write is acknowledged and was accepted. -/
theorem acknowledged_iff_ready : ∃ bus',
    sampleChannel.writeSector 7 (fun _ => 0x55) ⟨writeAnswers 0x50, [], []⟩ = .ok true bus' ∧
    Accepted sampleChannel bus'.log := by
  obtain ⟨bus', hok⟩ : ∃ bus', sampleChannel.writeSector 7 (fun _ => 0x55)
      ⟨writeAnswers 0x50, [], []⟩ = .ok true bus' := by decide +kernel
  refine ⟨bus', hok,
    ((acknowledged_iff _ _ _ _ none ⟨syncDrive 0x50, syncFile⟩).1 _ _ hok).mpr ?_ rfl⟩
  have hphase : dataPhase (writeAnswers 0x50) = some [0xD0, 0x50, 0x04] := by decide
  have hfirst : first idle [0xD0, 0x50, 0x04] = some (0x50, [0x04]) := by decide
  intro rest hrest r hr
  rw [hphase, Option.some.injEq] at hrest
  rw [← hrest, hfirst, Option.some.injEq] at hr
  rw [← hr]
  decide

/-- The drive is ready, takes the data and reports an error and a fault then. The write is
acknowledged all the same, and an `f_sync` that made it returns `Ok`. -/
theorem write_error_ignored :
    (∃ bus', sampleChannel.writeSector 7 (fun _ => 0x55) ⟨writeAnswers 0x71, [], []⟩ =
      .ok true bus' ∧ statusAfterData sampleChannel bus'.log = some 0x71 ∧
      ¬ Accepted sampleChannel bus'.log) ∧
    ∃ s', fSync (some ⟨1, 1, 1, 1, 2, 2, 1⟩) ⟨syncDrive 0x71, syncFile⟩ = .ok () s' ∧
      s'.dev.writes.map (fun w => (w.lba, w.accepted)) = [(2, false)] := by
  constructor <;> decide +kernel

end PlanckOS.Ata
