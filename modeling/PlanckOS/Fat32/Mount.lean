import PlanckOS.Fat32.Manage
import PlanckOS.Fat32.Raw

/-!
# What `f_mount` lets through

All addresses of the driver are computed in 32 bits without checks, so everything rests on the boot
sector. `f_mount` looks at the signature, at the sizes of sectors and clusters, at the number of
root entries and for a table; it does not look at the number of tables, at the root cluster, or at
the products. `mount_usable_iff` says which boot sectors give a `Usable` geometry.

The bound of the search for free clusters comes from the size of the table alone, not from the size
of the device. `free_on_device_iff` says when the clusters that `find_free_cluster` returns, and
those that `f_getfree` counts, have all their sectors on the device. The device (`Drive`) has a size
of its own, and its reads may fail.
-/

set_option autoImplicit false

namespace PlanckOS.Fat32

open Lib.Word Lib.Fallible FatVolume List

variable {c : Nat} {vol : FatVolume}

/-! ## Usable geometry -/

/-- There are a table and a root cluster with an entry in it, and the addresses of the root cluster
and of every entry are computed without wrapping. -/
structure Usable (vol : FatVolume) : Prop where
  fats : 1 ≤ vol.numFats
  root : 2 ≤ vol.rootCluster
  data : vol.fatRegionLba + vol.numFats * vol.sectorsPerFat < 2 ^ 32
  bytes : vol.sectorsPerFat * SECTOR_SIZE < 2 ^ 32
  inside : vol.rootCluster < vol.sectorsPerFat * 128
  rootLba : vol.clusterToLba vol.rootCluster = vol.fatRegionLba +
    vol.numFats * vol.sectorsPerFat + (vol.rootCluster - 2) * vol.sectorsPerCluster
  entries : ∀ c < vol.sectorsPerFat * 128,
    vol.fatSector c = vol.fatRegionLba + c * 4 / SECTOR_SIZE ∧ fatOffset c = c * 4 % SECTOR_SIZE ∧
      ∀ k < vol.numFats,
        vol.copySector k c = vol.fatRegionLba + k * vol.sectorsPerFat + c * 4 / SECTOR_SIZE

/-- What a boot sector has to say for this. -/
structure SoundBoot (buf : Buf) : Prop where
  fats : 1 ≤ (buf 0x10).toNat
  root : 2 ≤ buf.le32 0x2C
  bytes : buf.le32 0x24 < 2 ^ 23
  inside : buf.le32 0x2C < buf.le32 0x24 * 128
  lba : buf.le16 0x0E + (buf 0x10).toNat * buf.le32 0x24 +
    (buf.le32 0x2C - 2) * (buf 0x0D).toNat < 2 ^ 32

section Mount

variable {buf : Buf}

/-- The table addresses of a volume of less than `2 ^ 23` table sectors do not wrap. -/
theorem bootVolume_entries (hbytes : buf.le32 0x24 < 2 ^ 23) (hc : c < buf.le32 0x24 * 128) :
    (bootVolume buf).fatSector c = buf.le16 0x0E + c * 4 / SECTOR_SIZE ∧
      fatOffset c = c * 4 % SECTOR_SIZE ∧ ∀ k < (buf 0x10).toNat, (bootVolume buf).copySector k c =
          buf.le16 0x0E + k * buf.le32 0x24 + c * 4 / SECTOR_SIZE := by
  have hreserved : buf.le16 0x0E < 2 ^ 16 := leVal_lt _ 2
  have hoffset : c * 4 % 2 ^ 32 = c * 4 := Nat.mod_eq_of_lt (by omega)
  have hsector : (bootVolume buf).fatSector c = buf.le16 0x0E + c * 4 / SECTOR_SIZE := by
    rw [fatSector, hoffset, SECTOR_SIZE]
    exact Nat.mod_eq_of_lt (show buf.le16 0x0E + c * 4 / 512 < 2 ^ 32 by omega)
  refine ⟨hsector, ?_, fun k hk => ?_⟩
  · rw [fatOffset, hoffset]
  · have hcount : k ≤ 255 := by
      have := (buf 0x10).toNat_lt
      omega
    have hcopy : k * buf.le32 0x24 ≤ 255 * 2 ^ 23 := Nat.mul_le_mul hcount hbytes.le
    rw [copySector, hsector, SECTOR_SIZE]
    show ((buf.le16 0x0E + k * buf.le32 0x24) % 2 ^ 32 + (buf.le16 0x0E + c * 4 / 512) +
      (2 ^ 32 - buf.le16 0x0E)) % 2 ^ 32 = _
    omega

/-- The address of a cluster does not wrap when it fits in 32 bits. -/
theorem bootVolume_lba (hc : 2 ≤ c) (hsmall : c < 2 ^ 32)
    (h : buf.le16 0x0E + (buf 0x10).toNat * buf.le32 0x24 + (c - 2) * (buf 0x0D).toNat < 2 ^ 32) :
    (bootVolume buf).clusterToLba c =
      buf.le16 0x0E + (buf 0x10).toNat * buf.le32 0x24 + (c - 2) * (buf 0x0D).toNat := by
  have hsub : (c + (2 ^ 32 - 2)) % 2 ^ 32 = c - 2 := by omega
  rw [clusterToLba, hsub]
  show ((buf.le16 0x0E + (buf 0x10).toNat * buf.le32 0x24) % 2 ^ 32 +
    (c - 2) * (buf 0x0D).toNat) % 2 ^ 32 = _
  rw [Nat.mod_eq_of_lt (show buf.le16 0x0E + (buf 0x10).toNat * buf.le32 0x24 < 2 ^ 32 by omega),
    Nat.mod_eq_of_lt h]

/-- **What `f_mount` accepts.** A boot sector that it accepts gives a usable geometry exactly when
it names a table, a root cluster inside of the table, at most `2 ^ 23 - 1` sectors for the table,
and the address of the root cluster fits in 32 bits. None of this is checked. -/
theorem mount_usable_iff {δ : Type} [BlockDevice δ] (d d₁ d' : δ) (boot : Sector) (vol : FatVolume)
    (hread : BlockDevice.readSector d 0 = (some boot, d₁))
    (hmount : fMount d = .ok vol d') : Usable vol ↔ SoundBoot boot.buf := by
  obtain ⟨boot', hread', rfl, -⟩ := fMount_boot hmount
  obtain rfl : boot = boot' := Option.some.inj (congrArg Prod.fst (hread.symm.trans hread'))
  constructor
  · intro h
    refine ⟨h.fats, h.root, ?_, h.inside, ?_⟩
    · have hbytes : boot.buf.le32 0x24 * 512 < 2 ^ 32 := h.bytes
      omega
    · -- the address computed is a number of 32 bits
      have hlba : boot.buf.le16 0x0E + (boot.buf 0x10).toNat * boot.buf.le32 0x24 +
          (boot.buf.le32 0x2C - 2) * (boot.buf 0x0D).toNat =
          (bootVolume boot.buf).clusterToLba (bootVolume boot.buf).rootCluster := h.rootLba.symm
      rw [hlba]
      exact Nat.mod_lt _ (by norm_num)
  · intro h
    have hsmall : boot.buf.le32 0x2C < 2 ^ 32 := leVal_lt _ 4
    have hbytes := h.bytes
    have hlba := h.lba
    refine ⟨h.fats, h.root, ?_, ?_, h.inside, bootVolume_lba h.root hsmall hlba,
      fun c hc => bootVolume_entries hbytes hc⟩
    · show boot.buf.le16 0x0E + (boot.buf 0x10).toNat * boot.buf.le32 0x24 < 2 ^ 32
      omega
    · show boot.buf.le32 0x24 * 512 < 2 ^ 32
      omega

end Mount

/-! ### Boot sectors -/

/-- A device that starts with a boot sector with the given numbers: sectors of a cluster and before
the tables, number and size of the tables, and the root cluster. -/
def bootWith (spc reserved numFats fatsz root : Nat) : Disk :=
  let buf : Buf := fun _ => 0
  let buf := (buf.store 0x0B (bytes16 512)).set 0x0D (UInt8.ofNat spc)
  let buf := (buf.store 0x0E (bytes16 reserved)).set 0x10 (UInt8.ofNat numFats)
  let buf := (buf.store 0x24 (bytes32 fatsz)).store 0x2C (bytes32 root)
  fun lba => Sector.ofBuf (if lba = 0 then buf.store 0x1FE [0x55, 0xAA] else fun _ => 0)

/-- `f_mount` accepts such a boot sector and takes these numbers over. -/
def Mounts (spc reserved numFats fatsz root : Nat) (vol : FatVolume) : Prop :=
  ∃ d, fMount (bootWith spc reserved numFats fatsz root) = .ok vol d

instance (spc reserved numFats fatsz root : Nat) (vol : FatVolume) :
    Decidable (Mounts spc reserved numFats fatsz root vol) :=
  inferInstanceAs (Decidable (∃ d, _ = Outcome.ok vol d))

/-- A small volume is usable. -/
theorem mount_usable_iff_small : Usable ⟨1, 32, 2, 8, 2, 48, 32⟩ := by
  obtain ⟨d, hmount⟩ : Mounts 1 32 2 8 2 ⟨1, 32, 2, 8, 2, 48, 32⟩ :=
    by decide +kernel
  refine (mount_usable_iff _ _ d _ _ rfl hmount).mpr ⟨?_, ?_, ?_, ?_, ?_⟩ <;> decide +kernel

/-- Boot sectors that `f_mount` accepts: one without a table; one with root cluster 0, whose address
lies in front of the data; one whose root cluster has no entry; two whose products wrap, so that the
data region starts in sector 32 and the table has no entry; and one with numbers that pass all these
tests, whose root cluster gets the address of the first data sector. -/
theorem mount_accepts_unusable : (∃ vol, Mounts 1 32 0 8 2 vol ∧ vol.numFats = 0) ∧
    (∃ vol, Mounts 1 32 2 8 0 vol ∧ vol.rootCluster < 2 ∧
      vol.clusterToLba vol.rootCluster < vol.dataRegionLba) ∧
    (∃ vol, Mounts 1 32 2 8 1024 vol ∧ vol.sectorsPerFat * 128 ≤ vol.rootCluster) ∧
    (∃ vol, Mounts 1 32 2 (2 ^ 31) 2 vol ∧ vol.dataRegionLba = 32 ∧ vol.maxCluster = 0) ∧
    ∃ vol, Mounts 128 32 1 (2 ^ 22) (2 ^ 25 + 2) vol ∧ 1 ≤ vol.numFats ∧ 2 ≤ vol.rootCluster ∧
      vol.fatRegionLba + vol.numFats * vol.sectorsPerFat < 2 ^ 32 ∧
      vol.sectorsPerFat * SECTOR_SIZE < 2 ^ 32 ∧ vol.rootCluster < vol.sectorsPerFat * 128 ∧
      vol.clusterToLba vol.rootCluster = vol.dataRegionLba ∧ ¬ Usable vol := by
  refine ⟨⟨⟨1, 32, 0, 8, 2, 32, 32⟩, by decide +kernel, rfl⟩,
    ⟨⟨1, 32, 2, 8, 0, 48, 32⟩, by decide +kernel, by decide, by decide⟩,
    ⟨⟨1, 32, 2, 8, 1024, 48, 32⟩, by decide +kernel, by decide⟩,
    ⟨⟨1, 32, 2, 2 ^ 31, 2, 32, 32⟩, by decide +kernel, rfl, by decide⟩,
    ⟨128, 32, 1, 2 ^ 22, 2 ^ 25 + 2, 2 ^ 22 + 32, 32⟩, by decide +kernel,
    by decide, by decide, by decide, by decide, by decide, by decide, fun h => ?_⟩
  exact absurd h.rootLba (by decide)

/-! ## Free clusters on the device -/

/-- A device with a number of sectors. Reading any of them may fail. -/
structure Drive where
  sectors : Nat
  read : Nat → Option Sector

instance : BlockDevice Drive where
  readSector v lba := (v.read lba, v)
  writeSector v lba s := (true, { v with read := fun l => if l = lba then some s else v.read l })
  sectorCount v := v.sectors

/-- The table entry of a cluster, or a read error. -/
def Drive.entry (v : Drive) (vol : FatVolume) (c : Nat) : Option Nat :=
  (v.read (vol.fatSector c)).map fun sector => sector.buf.le32 (fatOffset c) &&& 0x0FFFFFFF

/-- All sectors of the cluster are on the device. -/
def OnDevice (vol : FatVolume) (v : Drive) (c : Nat) : Prop :=
  vol.clusterToLba c + vol.sectorsPerCluster ≤ BlockDevice.sectorCount v
  deriving Decidable

/-- The cluster that `find_free_cluster` returns is on the device, and `f_getfree` counts the free
clusters on the device. -/
structure FreeOnDevice (vol : FatVolume) (v : Drive) : Prop where
  found : ∀ c v', vol.findFreeCluster v = .ok c v' → OnDevice vol v c
  counted : ∀ r v', fGetfree (some vol) v = .ok r v' →
    r.1 = ((range' 2 (vol.maxCluster - 2)).filter fun c =>
      decide (OnDevice vol v c) && v.entry vol c == some 0).length

/-- The first free cluster of the table is on the device, and when the whole table can be read all
of them are. -/
structure TableFits (vol : FatVolume) (v : Drive) : Prop where
  first : ∀ c, vol.Valid c → v.entry vol c = some 0 →
    (∀ x, 2 ≤ x → x < c → ∃ e, v.entry vol x = some e ∧ e ≠ 0) → OnDevice vol v c
  all : (∀ c, vol.Valid c → (v.entry vol c).isSome) →
    ∀ c, vol.Valid c → v.entry vol c = some 0 → OnDevice vol v c

section Free

variable {v v' : Drive}

theorem readSector_drive (v : Drive) (lba : Nat) : readSector lba v =
    (v.read lba).elim (.err .diskErr v) (.ok · v) := by
  have hread : BlockDevice.readSector v lba = (v.read lba, v) := rfl
  rw [readSector, hread]
  cases v.read lba <;> rfl

theorem Drive.readsTable (vol : FatVolume) (v : Drive) : vol.ReadsTable v (v.entry vol) := by
  intro c
  have hrun := readSector_drive v (vol.fatSector c)
  rw [readFatEntry, Drive.entry]
  cases hread : v.read (vol.fatSector c) with
  | none =>
    rw [hread] at hrun
    exact Op.bind_err hrun
  | some sector =>
    rw [hread] at hrun
    exact Op.bind_ok hrun

theorem mem_clusters : c ∈ range' 2 (vol.maxCluster - 2) ↔ vol.Valid c := by
  rw [mem_range'_1, Valid]
  omega

/-- The cluster that `find_free_cluster` returns. -/
theorem findFreeCluster_drive : vol.findFreeCluster v = .ok c v' ↔
    v' = v ∧ vol.Valid c ∧ v.entry vol c = some 0 ∧
      ∀ x, 2 ≤ x → x < c → ∃ e, v.entry vol x = some e ∧ e ≠ 0 := by
  rw [findFreeCluster, (Drive.readsTable vol v).findFreeFrom_iff, ← mem_range'_1, mem_clusters]

/-- The number that `f_getfree` returns. -/
theorem fGetfree_drive {r : Nat × Nat} : fGetfree (some vol) v = .ok r v' ↔
    v' = v ∧ (∀ c, vol.Valid c → (v.entry vol c).isSome) ∧
      r = (((range' 2 (vol.maxCluster - 2)).filter (v.entry vol · == some 0)).length,
        (vol.maxCluster + (2 ^ 32 - 2)) % 2 ^ 32) := by
  have hmax : vol.maxCluster < 2 ^ 30 := by
    rw [maxCluster]
    omega
  have hcount : ∀ m v', vol.countFreeFrom 2 0 (vol.maxCluster - 2) v = .ok m v' ↔
      v' = v ∧ (∀ c, vol.Valid c → (v.entry vol c).isSome) ∧
        m = ((range' 2 (vol.maxCluster - 2)).filter (v.entry vol · == some 0)).length := by
    intro m v'
    rw [(Drive.readsTable vol v).countFreeFrom_iff (by omega)]
    simp only [← and_imp, ← mem_range'_1, mem_clusters, Nat.zero_add, countP_eq_length_filter]
  rw [fGetfree, withVol, countFreeClusters]
  constructor
  · intro h
    cases hrun : vol.countFreeFrom 2 0 (vol.maxCluster - 2) v with
    | ok m v₁ =>
      rw [Op.bind_ok hrun] at h
      obtain ⟨rfl, rfl⟩ := Outcome.ok.inj h
      obtain ⟨rfl, hall, rfl⟩ := (hcount m v₁).mp hrun
      exact ⟨rfl, hall, rfl⟩
    | err e v₁ =>
      rw [Op.bind_err hrun] at h
      cases h
    | fault w =>
      have hfault : Op.bind (vol.countFreeFrom 2 0 (vol.maxCluster - 2) : DevOp Drive Nat)
          (fun free => pure (free, (vol.maxCluster + (2 ^ 32 - 2)) % 2 ^ 32)) v = .ok r v' := h
      rw [Op.bind, hrun] at hfault
      cases hfault
  · rintro ⟨rfl, hall, rfl⟩
    rw [Op.bind_ok ((hcount _ v').mpr ⟨rfl, hall, rfl⟩)]
    rfl

/-- **Free clusters and the size of the device.** For every volume and every content of the device,
`find_free_cluster` returns clusters on the device only, and `f_getfree` counts such clusters only,
exactly when the free entries of the table belong to clusters on the device. -/
theorem free_on_device_iff (vol : FatVolume) (v : Drive) :
    FreeOnDevice vol v ↔ TableFits vol v := by
  constructor
  · intro h
    refine ⟨fun c hc hfree hused => ?_, fun hall c hc hfree => ?_⟩
    · exact h.found c v (findFreeCluster_drive.mpr ⟨rfl, hc, hfree, hused⟩)
    · -- the counts agree, so no free cluster was left out
      have hlen := h.counted _ v (fGetfree_drive.mpr ⟨rfl, hall, rfl⟩)
      rw [← filter_filter] at hlen
      have hon := length_filter_eq_length_iff.mp hlen.symm c
        (mem_filter.mpr ⟨mem_clusters.mpr hc, by simpa using hfree⟩)
      exact of_decide_eq_true hon
  · intro h
    refine ⟨fun c v' hrun => ?_, fun r v' hrun => ?_⟩
    · obtain ⟨-, hc, hfree, hused⟩ := findFreeCluster_drive.mp hrun
      exact h.first c hc hfree hused
    · obtain ⟨-, hall, rfl⟩ := fGetfree_drive.mp hrun
      rw [← filter_filter]
      refine (length_filter_eq_length_iff.mpr fun c hmem => ?_).symm
      obtain ⟨hc, hfree⟩ := mem_filter.mp hmem
      exact decide_eq_true (h.all hall c (mem_clusters.mp hc) (by simpa using hfree))

end Free

/-- A device of three sectors: the boot sector, a table of one sector and an empty root directory.
-/
def shortDrive : Drive where
  sectors := 3
  read lba :=
    if lba = 0 then some (bootWith 1 1 1 1 2 0)
    else if lba = 1 then
      some (Sector.ofBuf fun i => if i < 12 then leByte 0x0FFFFFFF (i % 4) else 0)
    else if lba = 2 then some (Sector.ofBuf fun _ => 0)
    else none

/-- The volume on it. -/
def shortVol : FatVolume := ⟨1, 1, 1, 1, 2, 2, 1⟩

/-- Its table has entries for 126 clusters, of which only cluster 2 is on the device: cluster 3 is
returned as a free one, and 125 are counted. -/
theorem free_cluster_past_end : fMount shortDrive = .ok shortVol shortDrive ∧
    shortVol.dataRegionLba < BlockDevice.sectorCount shortDrive ∧
    shortVol.findFreeCluster shortDrive = .ok 3 shortDrive ∧
    ¬ OnDevice shortVol shortDrive 3 ∧
    fGetfree (some shortVol) shortDrive = .ok (125, 126) shortDrive ∧
    ∀ c, shortVol.Valid c → OnDevice shortVol shortDrive c → c = 2 := by
  obtain ⟨v, hrun⟩ : ∃ v, fMount shortDrive = .ok shortVol v := by decide +kernel
  obtain ⟨boot, hread, -⟩ := fMount_boot hrun
  obtain rfl : shortDrive = v := congrArg Prod.snd hread
  have hreadable : ∀ c < 128, (shortDrive.entry shortVol c).isSome := by decide +kernel
  have hon : ∀ c < 128, 2 ≤ c → OnDevice shortVol shortDrive c → c = 2 := by decide +kernel
  refine ⟨hrun, by decide, ?_, by decide, ?_, fun c hc => hon c hc.2 hc.1⟩
  · refine findFreeCluster_drive.mpr ⟨rfl, by decide, by decide +kernel, ?_⟩
    intro x h2 h3
    obtain rfl : x = 2 := by omega
    exact ⟨0x0FFFFFFF, by decide +kernel, by decide⟩
  · exact fGetfree_drive.mpr ⟨rfl, fun c hc => hreadable c hc.2, by decide +kernel⟩

end PlanckOS.Fat32
