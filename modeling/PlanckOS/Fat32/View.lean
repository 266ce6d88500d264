import PlanckOS.Fat32.Volume
import PlanckOS.Lib.Chain

/-!
# What a volume shows

`Image` is the abstract content of a volume: one file allocation table and the bytes of the data
clusters. `view vol d` is the image of a reliable disk, and `Shows vol d img` adds that all copies
of the table agree. The lemmas give, for every primitive of the driver that touches the disk, the
value read and the image afterwards, so that proofs about the driver never look at sectors again.
-/

set_option autoImplicit false

namespace PlanckOS.Fat32

open Lib.Word Lib.Fallible Lib.Chain FatVolume

variable {d : Disk} {c s x v o k off off' j : Nat}

/-! ## Geometry -/

/-- A cluster of the data region that has an entry in the table. -/
def FatVolume.Valid (vol : FatVolume) (c : Nat) : Prop := 2 ≤ c ∧ c < vol.maxCluster
  deriving Decidable

/-- The layout of a mounted volume: a table whose clusters have 28-bit numbers, in front of a data
region that the 32-bit sector numbers reach. -/
structure Geometry (vol : FatVolume) : Prop where
  spc_pos : 0 < vol.sectorsPerCluster
  spc_le : vol.sectorsPerCluster ≤ 128
  fats_pos : 0 < vol.numFats
  data_eq : vol.dataRegionLba = vol.fatRegionLba + vol.numFats * vol.sectorsPerFat
  fat_bytes : vol.sectorsPerFat * SECTOR_SIZE < 2 ^ 32
  clusters_le : vol.maxCluster ≤ END_MARK
  data_pos : vol.dataRegionLba < 2 ^ 32
  data_end : vol.dataRegionLba + (vol.maxCluster - 2) * vol.sectorsPerCluster ≤ 2 ^ 32
  root_valid : vol.Valid vol.rootCluster

/-- The volume that `f_mount` makes of a boot sector. -/
def bootVolume (buf : Buf) : FatVolume where
  sectorsPerCluster := (buf 0x0D).toNat
  reservedSectors := buf.le16 0x0E
  numFats := (buf 0x10).toNat
  sectorsPerFat := buf.le32 0x24
  rootCluster := buf.le32 0x2C
  dataRegionLba := (buf.le16 0x0E + (buf 0x10).toNat * buf.le32 0x24) % 2 ^ 32
  fatRegionLba := buf.le16 0x0E

/-- **What the checks of `f_mount` leave**: a power of two below 256 for the size of a cluster, and
a table. -/
theorem fMount_boot {δ : Type} [BlockDevice δ] {d d' : δ} {vol : FatVolume}
    (h : fMount d = .ok vol d') : ∃ boot : Sector,
      BlockDevice.readSector d 0 = (some boot, d') ∧ vol = bootVolume boot.buf ∧
      0 < vol.sectorsPerCluster ∧ vol.sectorsPerCluster ≤ 128 ∧ 0 < vol.sectorsPerFat := by
  have hpow : ∀ n < 256, ¬ (n = 0 ∨ n &&& (n - 1) ≠ 0) → 0 < n ∧ n ≤ 128 := by decide +kernel
  rw [fMount, Op.bind_ok (Op.get_run d)] at h
  -- every check that fails ends the mount with an error
  split at h
  · cases h
  rcases hread : BlockDevice.readSector d 0 with ⟨_ | boot, d₁⟩
  · have hfail : readSector 0 d = .err .diskErr d₁ := by rw [readSector, hread]
    rw [Op.bind_err hfail] at h
    cases h
  have hboot : readSector 0 d = .ok boot d₁ := by rw [readSector, hread]
  rw [Op.bind_ok hboot] at h
  simp only at h
  split at h
  · cases h
  split at h
  · cases h
  split at h
  · cases h
  rename_i hspc
  split at h
  · cases h
  rename_i htable
  cases h
  obtain ⟨hpos, hle⟩ := hpow _ (UInt8.toNat_lt _) hspc
  exact ⟨boot, rfl, rfl, hpos, hle, Nat.pos_of_ne_zero fun h0 => htable (.inr h0)⟩

theorem fMount_shape {vol : FatVolume} {d' : Disk} (h : fMount d = .ok vol d') :
    0 < vol.sectorsPerCluster ∧ vol.sectorsPerCluster ≤ 128 ∧
      vol.dataRegionLba = (vol.fatRegionLba + vol.numFats * vol.sectorsPerFat) % 2 ^ 32 := by
  obtain ⟨boot, -, rfl, hpos, hle, -⟩ := fMount_boot h
  exact ⟨hpos, hle, rfl⟩

/-- Numbers that differ by a multiple of `2 ^ 30` have the same entry. -/
theorem fatSector_row (vol : FatVolume) (x : Nat) :
    vol.fatSector x = (vol.fatRegionLba + x % 2 ^ 30 / 128) % 2 ^ 32 := by
  rw [fatSector, SECTOR_SIZE]
  congr 2
  omega

theorem fatOffset_column (x : Nat) : fatOffset x = x % 128 * 4 := by
  rw [fatOffset, SECTOR_SIZE]
  omega

namespace Geometry

variable {vol : FatVolume}

variable (hg : Geometry vol)
include hg

theorem maxCluster_eq : vol.maxCluster = vol.sectorsPerFat * 128 := by
  have h := hg.fat_bytes
  rw [maxCluster, Nat.mod_eq_of_lt h, SECTOR_SIZE]
  omega

theorem lt_end (hc : vol.Valid c) : c < END_MARK :=
  lt_of_lt_of_le hc.2 hg.clusters_le

theorem not_stop : ∀ x, vol.Valid x → ¬ END_MARK ≤ x :=
  fun _ hx => Nat.not_le.mpr (hg.lt_end hx)

/-- The table sector of an entry. -/
theorem fatSector_eq (hc : c < vol.maxCluster) : vol.fatSector c = vol.fatRegionLba + c / 128 := by
  have hmax := hg.maxCluster_eq
  have hbytes : vol.sectorsPerFat * 512 < 2 ^ 32 := hg.fat_bytes
  have hdata := hg.data_pos
  have hrow : vol.sectorsPerFat ≤ vol.numFats * vol.sectorsPerFat :=
    Nat.le_mul_of_pos_left _ hg.fats_pos
  rw [hg.data_eq] at hdata
  rw [fatSector_row]
  omega

/-- The sectors of a valid cluster lie in the data region. -/
theorem cluster_end (hc : vol.Valid c) :
    vol.dataRegionLba + (c - 2) * vol.sectorsPerCluster + vol.sectorsPerCluster ≤ 2 ^ 32 := by
  have hstep : (c - 2) * vol.sectorsPerCluster + vol.sectorsPerCluster ≤
      (vol.maxCluster - 2) * vol.sectorsPerCluster := by
    rw [← Nat.succ_mul]
    exact Nat.mul_le_mul_right _ (by have := hc.1; have := hc.2; omega)
  have hend := hg.data_end
  omega

theorem clusterToLba_eq (hc : vol.Valid c) :
    vol.clusterToLba c = vol.dataRegionLba + (c - 2) * vol.sectorsPerCluster := by
  have hend := hg.cluster_end hc
  have hpos := hg.spc_pos
  have hlt := hg.lt_end hc
  have hsub : (c + (2 ^ 32 - 2)) % 2 ^ 32 = c - 2 := by
    have := hc.1
    rw [END_MARK] at hlt
    omega
  rw [clusterToLba, hsub, Nat.mod_eq_of_lt (by omega)]

/-- The sector numbers of a cluster do not wrap. -/
theorem sector_eq (hc : vol.Valid c) (hs : s < vol.sectorsPerCluster) :
    (vol.clusterToLba c + s) % 2 ^ 32 =
      vol.dataRegionLba + (c - 2) * vol.sectorsPerCluster + s := by
  have hend := hg.cluster_end hc
  rw [hg.clusterToLba_eq hc, Nat.mod_eq_of_lt (by omega)]

end Geometry

/-! ## Images -/

/-- The table, with raw 32-bit entries, and the bytes of the clusters. -/
@[ext] structure Image where
  fat : Nat → Nat
  data : Nat → Nat → UInt8

namespace Image

/-- The 28 bits of an entry that the driver reads. -/
def next (img : Image) (c : Nat) : Nat := img.fat c % 2 ^ 28

/-- Replace the 28 bits of an entry. -/
def setEntry (img : Image) (c v : Nat) : Image :=
  { img with fat := fun x => if x = c then img.fat c / 2 ^ 28 * 2 ^ 28 + v % 2 ^ 28 else img.fat x }

/-- Replace the bytes of a cluster. -/
def setData (img : Image) (c : Nat) (f : Buf) : Image :=
  { img with data := fun x => if x = c then f else img.data x }

/-- Replace one sector of a cluster. -/
def setSector (img : Image) (c s : Nat) (sector : Sector) : Image :=
  img.setData c fun o => if o / 512 = s then sector.buf (o % 512) else img.data c o

/-- The chain of clusters from `a` on. -/
def Chain (img : Image) (vol : FatVolume) (a : Nat) (l : List Nat) : Prop :=
  IsChain img.next vol.Valid (END_MARK ≤ ·) a l
  deriving Decidable

variable (img : Image) {f : Buf}

@[simp] theorem setEntry_data : (img.setEntry c v).data = img.data := rfl

@[simp] theorem setData_fat : (img.setData c f).fat = img.fat := rfl

@[simp] theorem setData_self : (img.setData c f).data c = f := if_pos rfl

theorem setData_ne (h : x ≠ c) : (img.setData c f).data x = img.data x := if_neg h

theorem setEntry_self :
    (img.setEntry c v).fat c = img.fat c / 2 ^ 28 * 2 ^ 28 + v % 2 ^ 28 := if_pos rfl

theorem setEntry_ne (h : x ≠ c) : (img.setEntry c v).fat x = img.fat x := if_neg h

theorem next_setEntry_ne (h : x ≠ c) : (img.setEntry c v).next x = img.next x := by
  rw [next, next, img.setEntry_ne h]

@[simp] theorem next_setEntry_self : (img.setEntry c v).next c = v % 2 ^ 28 := by
  rw [next, setEntry_self, Nat.mul_comm, Nat.mul_add_mod]
  exact Nat.mod_mod _ _

/-- The four reserved bits of the entries stay. -/
theorem high_setEntry (c v x : Nat) : (img.setEntry c v).fat x / 2 ^ 28 = img.fat x / 2 ^ 28 := by
  by_cases h : x = c
  · subst h
    rw [setEntry_self]
    omega
  · rw [img.setEntry_ne h]

end Image

/-! ## The view of a disk -/

section

variable (vol : FatVolume) (d : Disk)

/-- Entry `c` of copy `k` of the table. -/
def rawEntry (k c : Nat) : Nat :=
  (d (vol.fatRegionLba + k * vol.sectorsPerFat + c / 128)).buf.le32 (c % 128 * 4)

/-- Byte `o` of cluster `c`. -/
def clusterByte (c o : Nat) : UInt8 :=
  (d (vol.dataRegionLba + (c - 2) * vol.sectorsPerCluster + o / 512)).buf (o % 512)

/-- The content of a volume, nothing outside of it. -/
def view : Image where
  fat c := if c < vol.maxCluster then rawEntry vol d 0 c else 0
  data c o := if vol.Valid c ∧ o < vol.clusterSize then clusterByte vol d c o else 0

/-- All copies of the table agree. -/
def Mirrored : Prop :=
  ∀ k < vol.numFats, ∀ j < vol.sectorsPerFat,
    d (vol.fatRegionLba + k * vol.sectorsPerFat + j) = d (vol.fatRegionLba + j)

end

/-- The disk holds the image, with equal copies of the table. -/
structure Shows (vol : FatVolume) (d : Disk) (img : Image) : Prop where
  mirrored : Mirrored vol d
  view_eq : view vol d = img

theorem Mirrored.shows {vol : FatVolume} (h : Mirrored vol d) : Shows vol d (view vol d) := ⟨h, rfl⟩

section Primitives

variable {vol : FatVolume} {img : Image}

theorem clusterSize_eq (vol : FatVolume) : vol.clusterSize = vol.sectorsPerCluster * 512 := rfl

/-- A cluster has at least one sector and at most 128. -/
theorem Geometry.clusterSize_bounds (hg : Geometry vol) :
    512 ≤ vol.clusterSize ∧ vol.clusterSize ≤ 65536 := by
  have hpos := hg.spc_pos
  have hle := hg.spc_le
  rw [clusterSize_eq]
  omega

theorem view_fat (hc : c < vol.maxCluster) : (view vol d).fat c = rawEntry vol d 0 c := if_pos hc

theorem view_fat_outside (hc : ¬ c < vol.maxCluster) : (view vol d).fat c = 0 := if_neg hc

theorem view_data (hc : vol.Valid c) (ho : o < vol.clusterSize) :
    (view vol d).data c o = clusterByte vol d c o := if_pos ⟨hc, ho⟩

theorem view_data_outside (h : ¬ (vol.Valid c ∧ o < vol.clusterSize)) :
    (view vol d).data c o = 0 := if_neg h

theorem data_outside (hv : view vol d = img) (ho : vol.clusterSize ≤ o) : img.data c o = 0 := by
  rw [← hv]
  exact view_data_outside fun h => Nat.not_lt.mpr ho h.2

theorem fat_eq (hv : view vol d = img) (hc : c < vol.maxCluster) :
    img.fat c = rawEntry vol d 0 c := by
  rw [← hv]
  exact view_fat hc

variable (hg : Geometry vol) (hv : view vol d = img) (hs : Shows vol d img) (hc : vol.Valid c)
  (hsec : s < vol.sectorsPerCluster)

include hg hs in
/-- Equal table entries are equal in every copy. -/
theorem Shows.rawEntry_eq (hk : k < vol.numFats) (hc : c < vol.maxCluster) :
    rawEntry vol d k c = img.fat c := by
  have hmax := hg.maxCluster_eq
  have hsec : c / 128 < vol.sectorsPerFat := by omega
  rw [fat_eq hs.view_eq hc, rawEntry, rawEntry, hs.mirrored k hk _ hsec, Nat.zero_mul, Nat.add_zero]

/-! ## Table entries -/

include hg hv in
theorem readFatEntry_shows (hc : c < vol.maxCluster) :
    vol.readFatEntry c d = .ok (img.next c) d := by
  have hmask : ∀ w : Nat, w &&& 0x0FFFFFFF = w % 2 ^ 28 := fun w =>
    Nat.and_two_pow_sub_one_eq_mod w 28
  rw [readFatEntry, Op.bind_ok (readSector_disk d _), Op.pure_run, hmask, hg.fatSector_eq hc,
    fatOffset_column, Image.next, fat_eq hv hc, rawEntry, Nat.zero_mul, Nat.add_zero]

theorem le32_store_self (buf : Buf) (off w : Nat) :
    (buf.store off (bytes32 w)).le32 off = w % 2 ^ 32 := by
  have hbytes : ∀ i < 4, (buf.store off (bytes32 w)) (off + i) = leByte w i := by
    intro i hi
    have hlen : (bytes32 w).length = 4 := rfl
    rw [Buf.store, if_pos (by omega), Nat.add_sub_cancel_left]
    interval_cases i <;> rfl
  rw [Buf.le32, leVal_congr hbytes, leVal_leByte, show (256 : Nat) ^ 4 = 2 ^ 32 by decide]

theorem le32_congr {buf buf' : Buf} (h : ∀ i < 4, buf (off + i) = buf' (off + i)) :
    buf.le32 off = buf'.le32 off := leVal_congr h

theorem le32_store_of_apart (buf : Buf) {w : Nat} (h : off' + 4 ≤ off ∨ off + 4 ≤ off') :
    (buf.store off (bytes32 w)).le32 off' = buf.le32 off' := by
  apply le32_congr
  intro i hi
  have hlen : (bytes32 w).length = 4 := rfl
  exact if_neg (by omega)

theorem le32_ofBuf (b : Buf) (h : off + 4 ≤ 512) : (Sector.ofBuf b).buf.le32 off = b.le32 off :=
  le32_congr fun _ hi => Sector.buf_ofBuf b (by omega)

/-- The entry that `write_fat_entry` stores keeps the top four bits. -/
theorem le32_mergeEntry_self (sector : Sector) (h : off + 4 ≤ 512) :
    (mergeEntry sector off v).buf.le32 off =
      sector.buf.le32 off / 2 ^ 28 * 2 ^ 28 + v % 2 ^ 28 := by
  have hold : sector.buf.le32 off < 2 ^ 32 := leVal_lt _ 4
  have hhigh := land_high_mask (w := 32) (k := 28) (by decide) hold
  have hlow : v &&& 0x0FFFFFFF = v % 2 ^ 28 := Nat.and_two_pow_sub_one_eq_mod v 28
  have hor := lor_low_field (k := 28) (x := sector.buf.le32 off / 2 ^ 28 * 2 ^ 28)
    (f := v % 2 ^ 28) (Nat.mul_mod_left _ _) (Nat.mod_lt _ (by decide))
  rw [mergeEntry, le32_ofBuf _ h, le32_store_self,
    show (0xF0000000 : Nat) = 2 ^ 32 - 2 ^ 28 by decide, hhigh, hlow, hor]
  omega

theorem le32_mergeEntry_ne (sector : Sector) (h : off' + 4 ≤ 512)
    (hne : off' + 4 ≤ off ∨ off + 4 ≤ off') :
    (mergeEntry sector off v).buf.le32 off' = sector.buf.le32 off' := by
  rw [mergeEntry, le32_ofBuf _ h, le32_store_of_apart _ hne]

/-- Writing one sector to several places that are all different. -/
theorem forUpto_writeSector (addr : Nat → Nat) (new : Sector) (d : Disk) (n : Nat) :
    ∃ d' : Disk, Op.forUpto (fun k => (writeSector (addr k) new : DevOp Disk Unit)) n d =
        .ok () d' ∧
      (∀ k < n, d' (addr k) = new) ∧ ∀ l, (∀ k < n, l ≠ addr k) → d' l = d l := by
  induction n with
  | zero => exact ⟨d, rfl, fun k hk => absurd hk (Nat.not_lt_zero k), fun _ _ => rfl⟩
  | succ n ih =>
    obtain ⟨d₁, hrun, hnew, hold⟩ := ih
    refine ⟨fun l => if l = addr n then new else d₁ l, ?_, ?_, ?_⟩
    · exact Op.bind_ok (f := fun _ => writeSector (addr n) new) hrun
    · intro k hk
      by_cases haddr : addr k = addr n
      · exact if_pos haddr
      · have hkn : k < n := by
          rcases Nat.lt_succ_iff_lt_or_eq.mp hk with h | rfl
          · exact h
          · exact absurd rfl haddr
        exact (if_neg haddr).trans (hnew k hkn)
    · intro l hl
      have hrest := hold l fun k hk => hl k (Nat.lt_succ_of_lt hk)
      exact (if_neg (hl n (Nat.lt_succ_self n))).trans hrest

/-- Sectors of the table are told apart by copy and row. -/
theorem table_sector_inj {m k' j' : Nat} (hj : j < m) (hj' : j' < m)
    (h : k * m + j = k' * m + j') : k = k' ∧ j = j' := by
  have hm : 0 < m := by omega
  have hk := congrArg (· / m) h
  have hmod := congrArg (· % m) h
  simp only [Nat.mul_comm _ m, Nat.mul_add_mod, Nat.mod_eq_of_lt hj, Nat.mod_eq_of_lt hj',
    Nat.mul_add_div hm, Nat.div_eq_of_lt hj, Nat.div_eq_of_lt hj', Nat.add_zero] at hk hmod
  exact ⟨hk, hmod⟩

/-- The sector with the entry of the cluster in copy `k` of the table. -/
def FatVolume.copySector (vol : FatVolume) (k c : Nat) : Nat :=
  ((vol.fatRegionLba + k * vol.sectorsPerFat) % 2 ^ 32 + vol.fatSector c +
    (2 ^ 32 - vol.fatRegionLba)) % 2 ^ 32

/-- The device with the table entry of a cluster set, in all copies. -/
def FatVolume.setEntryOn (vol : FatVolume) (d : Disk) (c v : Nat) : Disk := fun lba =>
  if ∃ k < vol.numFats, lba = vol.copySector k c then
    mergeEntry (d (vol.fatSector c)) (fatOffset c) v
  else d lba

theorem writeFatEntry_run (vol : FatVolume) (d : Disk) (c v : Nat) :
    vol.writeFatEntry c v d = .ok () (vol.setEntryOn d c v) := by
  obtain ⟨d', hrun, hnew, hold⟩ := forUpto_writeSector (vol.copySector · c)
    (mergeEntry (d (vol.fatSector c)) (fatOffset c) v) d vol.numFats
  have hdev : d' = vol.setEntryOn d c v := by
    funext lba
    rw [setEntryOn]
    split
    next h =>
      obtain ⟨k, hk, rfl⟩ := h
      exact hnew k hk
    next h => exact hold lba fun k hk heq => h ⟨k, hk, heq⟩
  rw [writeFatEntry, Op.bind_ok (readSector_disk d _)]
  exact hdev ▸ hrun

/-- Sector `j` of copy `k` of the table, in the 32 bits of a sector number. -/
def FatVolume.tableSector (vol : FatVolume) (k j : Nat) : Nat :=
  (vol.fatRegionLba + k * vol.sectorsPerFat + j) % 2 ^ 32

/-- At least one copy of the table, and no sector that belongs to two of them. -/
structure CopiesApart (vol : FatVolume) : Prop where
  region_lt : vol.fatRegionLba < 2 ^ 32
  size_lt : vol.sectorsPerFat < 2 ^ 32
  fats_pos : 0 < vol.numFats
  apart : ∀ k < vol.numFats, ∀ k' < vol.numFats, k ≠ k' → ∀ j < vol.sectorsPerFat,
    ∀ j' < vol.sectorsPerFat, vol.tableSector k j ≠ vol.tableSector k' j'

/-- The byte offset of an entry below `2 ^ 30` fits in 32 bits. -/
theorem fatSector_eq_tableSector (hc : c < 2 ^ 30) :
    vol.fatSector c = vol.tableSector 0 (c / 128) := by
  rw [fatSector_row, tableSector]
  omega

theorem CopiesApart.copySector_eq (ht : CopiesApart vol) (k : Nat) (hc : c < 2 ^ 30) :
    vol.copySector k c = vol.tableSector k (c / 128) := by
  have hregion := ht.region_lt
  rw [copySector, fatSector_eq_tableSector hc, tableSector, tableSector]
  generalize k * vol.sectorsPerFat = start
  omega

/-- The sectors of the table after a write: one of them is new, in every copy. -/
theorem CopiesApart.setEntryOn_table (ht : CopiesApart vol) (hc : c < vol.sectorsPerFat * 128)
    (hc' : c < 2 ^ 30) (hk : k < vol.numFats) (hj : j < vol.sectorsPerFat) :
    vol.setEntryOn d c v (vol.tableSector k j) =
      if j = c / 128 then mergeEntry (d (vol.fatSector c)) (fatOffset c) v
      else d (vol.tableSector k j) := by
  have hrow : c / 128 < vol.sectorsPerFat := by omega
  have hsize := ht.size_lt
  rw [setEntryOn]
  by_cases hsame : j = c / 128
  · rw [if_pos ⟨k, hk, by rw [ht.copySector_eq k hc', hsame]⟩, if_pos hsame]
  · rw [if_neg hsame, if_neg]
    rintro ⟨k', hk', heq⟩
    rw [ht.copySector_eq k' hc'] at heq
    -- in one copy the sectors differ as there are fewer than `2 ^ 32`
    by_cases hkk : k = k'
    · subst hkk
      rw [tableSector, tableSector] at heq
      generalize k * vol.sectorsPerFat = start at heq
      omega
    · exact ht.apart k hk k' hk' hkk j hj _ hrow heq

/-- In a volume with this layout the sector numbers do not wrap. -/
theorem Geometry.tableSector_eq (hg : Geometry vol) (hk : k < vol.numFats)
    (hj : j < vol.sectorsPerFat) :
    vol.tableSector k j = vol.fatRegionLba + k * vol.sectorsPerFat + j ∧
      vol.tableSector k j < vol.dataRegionLba := by
  have hdata := hg.data_pos
  have hcopy : k * vol.sectorsPerFat + vol.sectorsPerFat ≤ vol.numFats * vol.sectorsPerFat := by
    rw [← Nat.succ_mul]
    exact Nat.mul_le_mul_right _ hk
  rw [tableSector]
  rw [hg.data_eq] at hdata ⊢
  omega

theorem Geometry.copiesApart (hg : Geometry vol) : CopiesApart vol where
  region_lt := by
    have hdata := hg.data_pos
    rw [hg.data_eq] at hdata
    omega
  size_lt := by
    have hbytes : vol.sectorsPerFat * 512 < 2 ^ 32 := hg.fat_bytes
    omega
  fats_pos := hg.fats_pos
  apart k hk k' hk' hne j hj j' hj' heq := by
    rw [(hg.tableSector_eq hk hj).1, (hg.tableSector_eq hk' hj').1] at heq
    exact hne (table_sector_inj hj hj' (by omega)).1

/-- An entry of the table has a row, and its number is below `2 ^ 30`. -/
theorem Geometry.row_lt (hg : Geometry vol) (hc : c < vol.maxCluster) :
    c < vol.sectorsPerFat * 128 ∧ c < 2 ^ 30 ∧ c / 128 < vol.sectorsPerFat := by
  have hmax := hg.maxCluster_eq
  have hbytes : vol.sectorsPerFat * 512 < 2 ^ 32 := hg.fat_bytes
  omega

/-- The copies of an entry, one table apart. -/
theorem Geometry.copySector_eq (hg : Geometry vol) (hk : k < vol.numFats)
    (hc : c < vol.maxCluster) :
    vol.copySector k c = vol.fatRegionLba + k * vol.sectorsPerFat + c / 128 := by
  obtain ⟨-, hc', hrow⟩ := hg.row_lt hc
  rw [hg.copiesApart.copySector_eq k hc', (hg.tableSector_eq hk hrow).1]

include hg hs in
/-- **`write_fat_entry` sets one entry, in every copy.** -/
theorem writeFatEntry_shows (hc : c < vol.maxCluster) :
    ∃ d', vol.writeFatEntry c v d = .ok () d' ∧ Shows vol d' (img.setEntry c v) := by
  obtain ⟨hc₁, hc₂, hrow⟩ := hg.row_lt hc
  have htable : ∀ k < vol.numFats, ∀ j < vol.sectorsPerFat,
      vol.setEntryOn d c v (vol.fatRegionLba + k * vol.sectorsPerFat + j) =
        if j = c / 128 then mergeEntry (d (vol.fatSector c)) (c % 128 * 4) v
        else d (vol.fatRegionLba + k * vol.sectorsPerFat + j) := by
    intro k hk j hj
    rw [← (hg.tableSector_eq hk hj).1, hg.copiesApart.setEntryOn_table hc₁ hc₂ hk hj,
      fatOffset_column]
  refine ⟨_, writeFatEntry_run vol d c v, ?_, ?_⟩
  · intro k hk j hj
    have h0 := htable 0 hg.fats_pos j hj
    rw [Nat.zero_mul, Nat.add_zero] at h0
    rw [htable k hk j hj, h0, hs.mirrored k hk j hj]
  · rw [← hs.view_eq]
    apply Image.ext
    · funext x
      by_cases hx : x < vol.maxCluster
      · have hfs : vol.fatSector c = vol.fatRegionLba + 0 * vol.sectorsPerFat + c / 128 := by
          rw [hg.fatSector_eq hc]
          omega
        rw [view_fat hx, rawEntry, htable 0 hg.fats_pos _ (hg.row_lt hx).2.2]
        by_cases hxc : x = c
        · rw [if_pos (by rw [hxc]), hxc, Image.setEntry_self, view_fat hc, rawEntry,
            le32_mergeEntry_self _ (by omega), hfs]
        · rw [Image.setEntry_ne _ hxc, view_fat hx, rawEntry]
          split_ifs with hsame
          · rw [le32_mergeEntry_ne _ (by omega) (by omega), hfs, hsame]
          · rfl
      · have hxc : x ≠ c := fun h => hx (h ▸ hc)
        rw [Image.setEntry_ne _ hxc, view_fat_outside hx, view_fat_outside hx]
    · funext x o
      rw [Image.setEntry_data]
      by_cases hxo : vol.Valid x ∧ o < vol.clusterSize
      · rw [view_data hxo.1 hxo.2, view_data hxo.1 hxo.2, clusterByte, clusterByte,
          setEntryOn, if_neg]
        -- the copies lie in front of the data region
        rintro ⟨k, hk, heq⟩
        have hfront := (hg.tableSector_eq hk hrow).2
        rw [hg.copiesApart.copySector_eq k hc₂] at heq
        omega
      · rw [view_data_outside hxo, view_data_outside hxo]

/-! ## Clusters -/

theorem readSectors_disk (lba n : Nat) : readSectors lba n d = .ok (fun k =>
      if k / 512 < n then (d ((lba + k / 512) % 2 ^ 32)).buf (k % 512) else 0) d := by
  induction n with
  | zero =>
    have hempty : (fun k => if k / 512 < 0 then
        (d ((lba + k / 512) % 2 ^ 32)).buf (k % 512) else 0) = fun _ => (0 : UInt8) := by
      funext k
      exact if_neg (Nat.not_lt_zero _)
    rw [hempty]
    rfl
  | succ n ih =>
    rw [readSectors, Op.bind_ok ih, Op.bind_ok (readSector_disk d _), Op.pure_run]
    congr 1
    funext k
    rw [SECTOR_SIZE]
    by_cases hlow : n * 512 ≤ k
    · rw [if_pos hlow]
      by_cases hhigh : k / 512 < n + 1
      · rw [if_pos hhigh, show k / 512 = n by omega, show k - n * 512 = k % 512 by omega]
      · rw [if_neg hhigh, Sector.buf, dif_neg (by omega)]
    · have hlt : k / 512 < n := by omega
      rw [if_neg hlow]
      exact (if_pos hlt).trans (if_pos (Nat.lt_succ_of_lt hlt)).symm

theorem sector_lt_iff (vol : FatVolume) (o : Nat) :
    o / 512 < vol.sectorsPerCluster ↔ o < vol.clusterSize := by
  rw [clusterSize_eq]
  omega

include hg hv hc in
theorem readCluster_shows : vol.readCluster c d = .ok (img.data c) d := by
  rw [readCluster, readSectors_disk]
  congr 1
  funext k
  rw [← hv]
  by_cases hk : k / 512 < vol.sectorsPerCluster
  · rw [view_data hc ((sector_lt_iff vol k).mp hk), clusterByte, ← hg.sector_eq hc hk]
    exact if_pos hk
  · rw [view_data_outside fun h => hk ((sector_lt_iff vol k).mpr h.2)]
    exact if_neg hk

include hg hv hc in
theorem readEntryData_shows (i : Nat) :
    vol.readEntryData c i d = .ok (entryAt (img.data c) i) d := by
  rw [readEntryData, Op.bind_ok (readCluster_shows hg hv hc), Op.pure_run]

/-- Sectors of clusters are told apart by cluster and position. -/
theorem data_sector_inj {m t : Nat} (hx : 2 ≤ x) (hc : 2 ≤ c) (hs : s < m) (ht : t < m)
    (h : (x - 2) * m + t = (c - 2) * m + s) : x = c ∧ t = s := by
  obtain ⟨h₁, h₂⟩ := table_sector_inj ht hs h
  exact ⟨by omega, h₂⟩

include hg hs hc hsec in
/-- **Writing a sector of a cluster.** -/
theorem setSector_shows (sector : Sector) :
    Shows vol (fun l => if l = vol.dataRegionLba + (c - 2) * vol.sectorsPerCluster + s
      then sector else d l) (img.setSector c s sector) := by
  have hdeq := hg.data_eq
  -- the tables end where the data region starts
  have hfront : ∀ k < vol.numFats, ∀ j < vol.sectorsPerFat,
      vol.fatRegionLba + k * vol.sectorsPerFat + j ≠
        vol.dataRegionLba + (c - 2) * vol.sectorsPerCluster + s := by
    intro k hk j hj
    have hcopy : (k + 1) * vol.sectorsPerFat ≤ vol.numFats * vol.sectorsPerFat :=
      Nat.mul_le_mul_right _ hk
    rw [Nat.succ_mul] at hcopy
    omega
  constructor
  · intro k hk j hj
    have h0 := hfront 0 hg.fats_pos j hj
    rw [Nat.zero_mul, Nat.add_zero] at h0
    exact (if_neg (hfront k hk j hj)).trans ((hs.mirrored k hk j hj).trans (if_neg h0).symm)
  · rw [← hs.view_eq]
    apply Image.ext
    · funext x
      rw [Image.setSector, Image.setData_fat]
      by_cases hx : x < vol.maxCluster
      · have hmax := hg.maxCluster_eq
        rw [view_fat hx, view_fat hx, rawEntry, rawEntry,
          if_neg (hfront 0 hg.fats_pos _ (by omega))]
      · rw [view_fat_outside hx, view_fat_outside hx]
    · funext x o
      by_cases hxo : vol.Valid x ∧ o < vol.clusterSize
      · obtain ⟨hx, ho⟩ := hxo
        have hos : o / 512 < vol.sectorsPerCluster := (sector_lt_iff vol o).mpr ho
        rw [view_data hx ho, clusterByte]
        by_cases hxc : x = c
        · subst hxc
          rw [Image.setSector, Image.setData_self]
          by_cases hso : o / 512 = s
          · rw [if_pos (by omega), if_pos hso]
          · rw [if_neg (by omega), if_neg hso, view_data hx ho, clusterByte]
        · rw [Image.setSector, Image.setData_ne _ hxc, view_data hx ho, clusterByte, if_neg]
          intro heq
          exact hxc (data_sector_inj hx.1 hc.1 hsec hos (by omega)).1
      · rw [view_data_outside hxo]
        by_cases hxc : x = c
        · subst hxc
          have hos : o / 512 ≠ s := by
            intro h
            exact hxo ⟨hc, (sector_lt_iff vol o).mp (h ▸ hsec)⟩
          rw [Image.setSector, Image.setData_self, if_neg hos, view_data_outside hxo]
        · rw [Image.setSector, Image.setData_ne _ hxc, view_data_outside hxo]

/-- The bytes of a buffer that fit in a cluster. -/
def FatVolume.clip (vol : FatVolume) (buf : Buf) : Buf := fun o =>
  if o < vol.clusterSize then buf o else 0

include hg hs hc in
/-- The first `n` sectors of `write_cluster`. -/
theorem forUpto_cluster_shows (buf : Buf) {n : Nat} (hn : n ≤ vol.sectorsPerCluster) :
    ∃ d', Op.forUpto (fun i => (writeSector ((vol.clusterToLba c + i) % 2 ^ 32)
        (Sector.ofBuf fun j => buf (i * SECTOR_SIZE + j)) : DevOp Disk Unit)) n d = .ok () d' ∧
      Shows vol d' (img.setData c fun o => if o / 512 < n then buf o else img.data c o) := by
  induction n with
  | zero =>
    refine ⟨d, rfl, ?_⟩
    have hsame : (img.setData c fun o => if o / 512 < 0 then buf o else img.data c o) = img := by
      apply Image.ext
      · rfl
      · funext x
        by_cases hx : x = c
        · subst hx
          funext o
          rw [Image.setData_self, if_neg (by omega)]
        · exact img.setData_ne hx
    rwa [hsame]
  | succ n ih =>
    obtain ⟨d₁, hrun, hs₁⟩ := ih (by omega)
    let sector := Sector.ofBuf fun j => buf (n * SECTOR_SIZE + j)
    let f : Buf := fun o => if o / 512 < n then buf o else img.data c o
    have hstep := setSector_shows hg hs₁ hc (by omega : n < vol.sectorsPerCluster) sector
    have himage : (img.setData c f).setSector c n sector =
        img.setData c fun o => if o / 512 < n + 1 then buf o else img.data c o := by
      apply Image.ext
      · rfl
      · funext x
        by_cases hx : x = c
        · subst hx
          funext o
          rw [Image.setSector, Image.setData_self, Image.setData_self, Image.setData_self]
          by_cases ho : o / 512 = n
          · have hlt : o / 512 < n + 1 := by omega
            rw [if_pos ho, if_pos hlt, Sector.buf_ofBuf _ (by omega), SECTOR_SIZE,
              show n * 512 + o % 512 = o by omega]
          · rw [if_neg ho]
            have hiff : o / 512 < n + 1 ↔ o / 512 < n := by omega
            by_cases hlt : o / 512 < n
            · exact (if_pos hlt).trans (if_pos (hiff.mpr hlt)).symm
            · exact (if_neg hlt).trans (if_neg (mt hiff.mp hlt)).symm
        · rw [Image.setSector, Image.setData_ne _ hx, Image.setData_ne _ hx, Image.setData_ne _ hx]
    rw [himage, ← hg.sector_eq hc (by omega : n < vol.sectorsPerCluster)] at hstep
    have hwrite := Op.bind_ok (f := fun _ : Unit =>
      (writeSector ((vol.clusterToLba c + n) % 2 ^ 32) sector : DevOp Disk Unit)) hrun
    exact ⟨_, hwrite, hstep⟩

include hg hs hc in
theorem writeCluster_shows (buf : Buf) : ∃ d', vol.writeCluster c buf d = .ok () d' ∧
      Shows vol d' (img.setData c (vol.clip buf)) := by
  obtain ⟨d', hrun, hs'⟩ := forUpto_cluster_shows hg hs hc buf le_rfl
  refine ⟨d', hrun, ?_⟩
  have hclip : (fun o => if o / 512 < vol.sectorsPerCluster then buf o else img.data c o) =
      vol.clip buf := by
    funext o
    rw [clip]
    by_cases ho : o < vol.clusterSize
    · rw [if_pos ho, if_pos ((sector_lt_iff vol o).mpr ho)]
    · rw [if_neg ho, if_neg (mt (sector_lt_iff vol o).mp ho)]
      exact data_outside hs.view_eq (Nat.not_lt.mp ho)
  rwa [hclip] at hs'

include hg hv hc hsec in
/-- A sector of a cluster, as `f_read` and `f_write` fetch it. -/
theorem sector_shows (hj : j < 512) :
    (d ((vol.clusterToLba c + s) % 2 ^ 32)).buf j = img.data c (s * 512 + j) := by
  have hlt : s * 512 + j < vol.clusterSize := by
    rw [clusterSize_eq]
    omega
  rw [hg.sector_eq hc hsec, ← hv, view_data hc hlt, clusterByte,
    show (s * 512 + j) / 512 = s by omega, show (s * 512 + j) % 512 = j by omega]

end Primitives

end PlanckOS.Fat32
