import PlanckOS.Fat32.View

/-!
# The device as the driver addresses it

`nextOn` and `clusterOn` are what the driver reads of a cluster number, `setEntryOn` and
`setClusterOn` the devices after its two kinds of writes. They are defined for every number, also
for one that no cluster has, with the wrapping of the address computations; a volume with a sound
geometry is not needed. The results that speak about every byte of the device, and those about
arbitrary table contents, are stated in these terms.
-/

set_option autoImplicit false

namespace PlanckOS.Fat32

open Lib.Fallible Lib.Chain FatVolume List

variable {d : Disk} {c v : Nat} {l : List Nat} {img : Image}

/-! ## Reads and writes -/

namespace FatVolume

section

variable (vol : FatVolume) (d : Disk) (c : Nat)

/-- The table entry of any cluster number, as the driver reads it. -/
def nextOn : Nat :=
  (d (vol.fatSector c)).buf.le32 (fatOffset c) &&& 0x0FFFFFFF

/-- The bytes of any cluster number, as the driver reads them. -/
def clusterOn : Buf := fun k =>
  if k / 512 < vol.sectorsPerCluster then
    (d ((vol.clusterToLba c + k / 512) % 2 ^ 32)).buf (k % 512)
  else 0

/-- The device with the bytes of a cluster set. -/
def setClusterOn (buf : Buf) : Disk := fun lba =>
  if vol.clusterToLba c ≤ lba ∧ lba < vol.clusterToLba c + vol.sectorsPerCluster then
    Sector.ofBuf fun j => buf ((lba - vol.clusterToLba c) * SECTOR_SIZE + j)
  else d lba

/-- The clusters that the driver meets from `c` on, up to an end mark. -/
def ChainOn (l : List Nat) : Prop :=
  IsChain (vol.nextOn d) (· < END_MARK) (END_MARK ≤ ·) c l
  deriving Decidable

end

end FatVolume

section Runs

variable {vol : FatVolume}

theorem readFatEntry_run : vol.readFatEntry c d = .ok (vol.nextOn d c) d := rfl

theorem readCluster_run : vol.readCluster c d = .ok (vol.clusterOn d c) d := readSectors_disk _ _

theorem readEntryData_run {i : Nat} :
    vol.readEntryData c i d = .ok (entryAt (vol.clusterOn d c) i) d :=
  Op.bind_ok readCluster_run

theorem nextOn_lt (vol : FatVolume) (d : Disk) (c : Nat) : vol.nextOn d c < 2 ^ 28 := by
  rw [nextOn, Nat.and_two_pow_sub_one_eq_mod _ 28]
  exact Nat.mod_lt _ (by norm_num)

/-- The numbers that a link can be. -/
@[irreducible] def links : Finset Nat := Finset.range (2 ^ 28)

theorem mem_links : c ∈ links ↔ c < 2 ^ 28 := by
  rw [links, Finset.mem_range]

theorem card_links : links.card = 2 ^ 28 := by
  rw [links, Finset.card_range]

/-- The sectors of a cluster, when their numbers do not wrap around. -/
theorem writeCluster_run (h : vol.clusterToLba c + vol.sectorsPerCluster ≤ 2 ^ 32) (buf : Buf) :
    vol.writeCluster c buf d = .ok () (vol.setClusterOn d c buf) := by
  have hrun : ∀ n ≤ vol.sectorsPerCluster, Op.forUpto (fun i =>
      (writeSector ((vol.clusterToLba c + i) % 2 ^ 32)
        (Sector.ofBuf fun j => buf (i * SECTOR_SIZE + j)) : DevOp Disk Unit)) n d =
      .ok () fun lba => if vol.clusterToLba c ≤ lba ∧ lba < vol.clusterToLba c + n then
        Sector.ofBuf fun j => buf ((lba - vol.clusterToLba c) * SECTOR_SIZE + j) else d lba := by
    intro n
    induction n with
    | zero =>
      intro _
      have hnone : d = fun lba => if vol.clusterToLba c ≤ lba ∧ lba < vol.clusterToLba c + 0 then
          Sector.ofBuf fun j => buf ((lba - vol.clusterToLba c) * SECTOR_SIZE + j) else d lba := by
        funext lba
        rw [if_neg (by omega)]
      exact congrArg (Outcome.ok ()) hnone
    | succ n ih =>
      intro hn
      have hlba : (vol.clusterToLba c + n) % 2 ^ 32 = vol.clusterToLba c + n :=
        Nat.mod_eq_of_lt (by omega)
      refine (Op.bind_ok (ih (by omega))).trans ((writeSector_disk _ _ _).trans ?_)
      rw [hlba]
      congr 1
      funext lba
      by_cases hlast : lba = vol.clusterToLba c + n
      · rw [if_pos hlast, if_pos (by omega), hlast, Nat.add_sub_cancel_left]
      · rw [if_neg hlast]
        by_cases hin : vol.clusterToLba c ≤ lba ∧ lba < vol.clusterToLba c + n
        · rw [if_pos hin, if_pos (by omega)]
        · rw [if_neg hin, if_neg (by omega)]
  exact hrun _ le_rfl

/-- Marking a free cluster changes its sector of the table. -/
theorem setEntryOn_ne (hfats : 0 < vol.numFats) (hregion : vol.fatRegionLba ≤ 2 ^ 32)
    (hfree : vol.nextOn d c = 0) :
    vol.setEntryOn d c 0x0FFFFFFF (vol.fatSector c) ≠ d (vol.fatSector c) := by
  have hlt : vol.fatSector c < 2 ^ 32 := Nat.mod_lt _ (by norm_num)
  have hcopy : vol.fatSector c = vol.copySector 0 c := by
    rw [copySector, Nat.zero_mul, Nat.add_zero]
    omega
  have hoff : fatOffset c + 4 ≤ 512 := by
    rw [fatOffset, SECTOR_SIZE]
    omega
  have hmask : vol.nextOn d c = (d (vol.fatSector c)).buf.le32 (fatOffset c) % 2 ^ 28 :=
    Nat.and_two_pow_sub_one_eq_mod _ 28
  intro heq
  have hentry := congrArg (fun t : Sector => t.buf.le32 (fatOffset c)) heq
  simp only [setEntryOn, if_pos (⟨0, hfats, hcopy⟩ : ∃ k < vol.numFats, vol.fatSector c =
    vol.copySector k c), le32_mergeEntry_self _ hoff] at hentry
  omega

theorem writeCluster_ok (vol : FatVolume) (c : Nat) (buf : Buf) (d : Disk) :
    ∃ d', vol.writeCluster c buf d = .ok () d' := by
  rw [writeCluster]
  generalize vol.sectorsPerCluster = n
  induction n with
  | zero => exact ⟨d, rfl⟩
  | succ n ih =>
    obtain ⟨d', hrun⟩ := ih
    exact ⟨_, Op.bind_ok (f := fun _ => writeSector _ _) hrun⟩

variable (hg : Geometry vol)
include hg

/-- The sectors of a valid cluster do not wrap around. -/
theorem writeCluster_valid (hv : vol.Valid c) (buf : Buf) :
    vol.writeCluster c buf d = .ok () (vol.setClusterOn d c buf) := by
  apply writeCluster_run
  rw [hg.clusterToLba_eq hv]
  exact hg.cluster_end hv

omit hg in
/-- A chain of table entries meets no cluster twice. -/
theorem FatVolume.ChainOn.length_le (hl : vol.ChainOn d c l) : l.length ≤ END_MARK := by
  have hnodup := hl.nodup fun x hx => Nat.not_le.mpr hx
  have hsub : l ⊆ range END_MARK := fun x hx => mem_range.mpr (hl.valid_of_mem hx)
  have hle := (hnodup.subperm hsub).length_le
  rwa [length_range] at hle

/-- For the clusters of the volume the driver reads what the image shows. -/
theorem nextOn_eq (hv : view vol d = img) (hc : c < vol.maxCluster) : vol.nextOn d c = img.next c :=
  (Outcome.ok.inj (readFatEntry_run.symm.trans (readFatEntry_shows hg hv hc))).1

theorem clusterOn_eq (hv : view vol d = img) (hc : vol.Valid c) : vol.clusterOn d c = img.data c :=
  (Outcome.ok.inj (readCluster_run.symm.trans (readCluster_shows hg hv hc))).1

theorem Image.Chain.on (hv : view vol d = img) (hl : img.Chain vol c l) : vol.ChainOn d c l := by
  induction hl with
  | last hvalid hs => exact .last (hg.lt_end hvalid) (nextOn_eq hg hv hvalid.2 ▸ hs)
  | link hvalid _ ih => exact .link (hg.lt_end hvalid) (nextOn_eq hg hv hvalid.2 ▸ ih)

end Runs

/-! ## The table as an array -/

/-- All copies of the table are the same. -/
def CopiesEqual (vol : FatVolume) (d : Disk) : Prop :=
  ∀ k < vol.numFats, ∀ j < vol.sectorsPerFat, d (vol.tableSector k j) = d (vol.tableSector 0 j)

section Table

variable {vol : FatVolume} {x : Nat}

/-- What the entries are read as after a write. -/
theorem CopiesApart.nextOn_setEntryOn (ht : CopiesApart vol) (hc : c < vol.sectorsPerFat * 128)
    (hc' : c < 2 ^ 30) (hx : x < vol.sectorsPerFat * 128) (hx' : x < 2 ^ 30) :
    vol.nextOn (vol.setEntryOn d c v) x = if x = c then v &&& 0x0FFFFFFF else vol.nextOn d x := by
  have hmask : ∀ w : Nat, w &&& 0x0FFFFFFF = w % 2 ^ 28 := fun w =>
    Nat.and_two_pow_sub_one_eq_mod w 28
  have hsector := ht.setEntryOn_table (d := d) (v := v) hc hc' ht.fats_pos
    (show x / 128 < vol.sectorsPerFat by omega)
  rw [← fatSector_eq_tableSector hx'] at hsector
  simp only [nextOn, hsector, hmask, fatOffset_column]
  by_cases hxc : x = c
  · rw [if_pos hxc, if_pos (by rw [hxc]), hxc,
      le32_mergeEntry_self _ (by omega), Nat.mul_comm, Nat.mul_add_mod, Nat.mod_mod]
  · rw [if_neg hxc]
    split
    next hrow =>
      rw [le32_mergeEntry_ne _ (by omega) (by omega), fatSector_eq_tableSector hc', ← hrow,
        ← fatSector_eq_tableSector hx']
    next => rfl

/-- **The table is an array, in every copy.** Writing an entry that the table has, and whose byte
offset fits in 32 bits, sets the low 28 bits of this entry and no other; the top four bits stay,
equal copies stay equal, and the sectors outside of the copies are not touched. -/
theorem writeFatEntry_array (ht : CopiesApart vol) (hc : c < vol.sectorsPerFat * 128)
    (hc' : c < 2 ^ 30) (d : Disk) (v : Nat) : ∃ d', vol.writeFatEntry c v d = .ok () d' ∧
      vol.readFatEntry c d' = .ok (v &&& 0x0FFFFFFF) d' ∧
      (∀ x < vol.sectorsPerFat * 128, x < 2 ^ 30 → x ≠ c → ∃ n, vol.readFatEntry x d = .ok n d ∧
        vol.readFatEntry x d' = .ok n d') ∧
      (d' (vol.fatSector c)).buf.le32 (fatOffset c) / 2 ^ 28 =
        (d (vol.fatSector c)).buf.le32 (fatOffset c) / 2 ^ 28 ∧
      (CopiesEqual vol d → CopiesEqual vol d') ∧
      ∀ lba, (∀ k < vol.numFats, ∀ j < vol.sectorsPerFat, lba ≠ vol.tableSector k j) →
        d' lba = d lba := by
  have hrow : c / 128 < vol.sectorsPerFat := by omega
  refine ⟨_, writeFatEntry_run vol d c v, ?_, ?_, ?_, ?_, ?_⟩
  · rw [readFatEntry_run, ht.nextOn_setEntryOn hc hc' hc hc', if_pos rfl]
  · intro x hx hx' hne
    refine ⟨_, readFatEntry_run, ?_⟩
    rw [readFatEntry_run, ht.nextOn_setEntryOn hc hc' hx hx', if_neg hne]
  · have hsector := ht.setEntryOn_table (d := d) (v := v) hc hc' ht.fats_pos hrow
    rw [← fatSector_eq_tableSector hc', if_pos rfl] at hsector
    have hoff : fatOffset c + 4 ≤ 512 := by
      rw [fatOffset_column]
      omega
    rw [hsector, le32_mergeEntry_self _ hoff]
    omega
  · intro hequal k hk j hj
    rw [ht.setEntryOn_table hc hc' hk hj, ht.setEntryOn_table hc hc' ht.fats_pos hj,
      hequal k hk j hj]
  · intro lba hout
    refine if_neg ?_
    rintro ⟨k, hk, heq⟩
    exact hout k hk _ hrow (heq.trans (ht.copySector_eq k hc'))

/-- Two copies of a table of more than 4 GiB. -/
def hugeTable : FatVolume := ⟨1, 32, 2, 2 ^ 23 + 1, 2, 32, 32⟩

theorem hugeTable_copiesApart : CopiesApart hugeTable where
  region_lt := by decide
  size_lt := by decide
  fats_pos := by decide
  apart k hk k' hk' hne j hj j' hj' := by
    simp only [hugeTable, tableSector] at hk hk' hj hj' ⊢
    interval_cases k <;> interval_cases k' <;> omega

/-- On a device full of bytes `F5` the entry becomes `F0000007` in both copies, and the next one
stays. -/
theorem writeFatEntry_array_huge : ∃ d d' : Disk, hugeTable.writeFatEntry 130 7 d = .ok () d' ∧
      hugeTable.readFatEntry 130 d' = .ok 7 d' ∧
      hugeTable.readFatEntry 131 d' = .ok 0x05F5F5F5 d' ∧
      (d' (hugeTable.tableSector 0 1)).buf.le32 8 / 2 ^ 28 = 0xF ∧
      d' (hugeTable.tableSector 1 1) = d' (hugeTable.tableSector 0 1) := by
  obtain ⟨d', hrun, hread, hrest, hhigh, hcopies, -⟩ := writeFatEntry_array hugeTable_copiesApart
    (c := 130) (by decide) (by decide) (fun _ => Sector.ofBuf fun _ => 0xF5) 7
  obtain ⟨n, hn, hnext⟩ := hrest 131 (by decide) (by decide) (by decide)
  obtain rfl : 0x05F5F5F5 = n := (Outcome.ok.inj hn).1
  exact ⟨_, d', hrun, hread, hnext, hhigh, hcopies (fun _ _ _ _ => rfl) 1 (by decide) 1 (by decide)⟩

/-- Entry `2 ^ 30` of this table has the byte offset of entry 0. -/
theorem writeFatEntry_wraps : CopiesApart hugeTable ∧ 2 ^ 30 < hugeTable.sectorsPerFat * 128 ∧
      ∃ d d' : Disk, hugeTable.writeFatEntry (2 ^ 30) 7 d = .ok () d' ∧
        hugeTable.readFatEntry 0 d = .ok 0 d ∧
        hugeTable.readFatEntry 0 d' = .ok 7 d' := by
  refine ⟨hugeTable_copiesApart, by decide, fun _ => Sector.ofBuf fun _ => 0, _,
    writeFatEntry_run _ _ _ _, ?_, ?_⟩
  · rw [readFatEntry_run]
    congr 1
  · rw [readFatEntry_run]
    congr 1

end Table

/-! ## Scans of the table -/

/-- Reading the table leaves the device alone: `entry c` is the entry read, `none` a read error. -/
def FatVolume.ReadsTable {δ : Type} [BlockDevice δ] (vol : FatVolume) (d : δ)
    (entry : Nat → Option Nat) : Prop :=
  ∀ c, vol.readFatEntry c d = (entry c).elim (.err .diskErr d) (.ok · d)

theorem readsTable_disk (vol : FatVolume) (d : Disk) :
    vol.ReadsTable d fun c => some (vol.nextOn d c) := fun _ => rfl

namespace FatVolume.ReadsTable

variable {δ : Type} [BlockDevice δ] {vol : FatVolume} {d d' : δ} {entry : Nat → Option Nat}
  {n new count m : Nat}

/-- **The search** returns the first free cluster, when all entries in front of it can be read. -/
theorem findFreeFrom_iff (h : vol.ReadsTable d entry) : vol.findFreeFrom c n d = .ok new d' ↔
      d' = d ∧ (c ≤ new ∧ new < c + n) ∧ entry new = some 0 ∧
        ∀ x, c ≤ x → x < new → ∃ e, entry x = some e ∧ e ≠ 0 := by
  -- along the search: the entry at `c` cannot be read, is free, or is in use
  induction n generalizing c with
  | zero =>
    constructor
    · intro h
      cases h
    · rintro ⟨-, ⟨h1, h2⟩, -⟩
      omega
  | succ n ih =>
    rw [findFreeFrom]
    cases hc : entry c with
    | none =>
      have hfail : vol.readFatEntry c d = .err .diskErr d := by rw [h c, hc]; rfl
      rw [Op.bind_err hfail]
      constructor
      · intro h
        cases h
      · rintro ⟨-, ⟨hle, -⟩, hfree, hused⟩
        rcases Nat.eq_or_lt_of_le hle with rfl | hlt
        · rw [hc] at hfree
          cases hfree
        · obtain ⟨e, he, -⟩ := hused c le_rfl hlt
          rw [hc] at he
          cases he
    | some e =>
      have hread : vol.readFatEntry c d = .ok e d := by rw [h c, hc]; rfl
      rw [Op.bind_ok hread]
      by_cases hfree : e = 0
      · rw [if_pos hfree]
        subst hfree
        constructor
        · intro h
          obtain ⟨rfl, rfl⟩ := Outcome.ok.inj h
          refine ⟨rfl, ⟨le_rfl, by omega⟩, hc, ?_⟩
          intro x hx hx'
          omega
        · rintro ⟨rfl, ⟨hle, -⟩, -, hused⟩
          rcases Nat.eq_or_lt_of_le hle with rfl | hlt
          · rfl
          · obtain ⟨e, he, hne⟩ := hused c le_rfl hlt
            rw [hc] at he
            exact absurd (Option.some.inj he).symm hne
      · rw [if_neg hfree, ih]
        constructor
        · rintro ⟨hd, ⟨h1, h2⟩, h0, hused⟩
          refine ⟨hd, ⟨by omega, by omega⟩, h0, ?_⟩
          intro x hx hx'
          rcases Nat.eq_or_lt_of_le hx with rfl | hlt
          · exact ⟨e, hc, hfree⟩
          · exact hused x hlt hx'
        · rintro ⟨hd, ⟨h1, h2⟩, h0, hused⟩
          have hne : new ≠ c := by
            rintro rfl
            rw [hc] at h0
            exact hfree (Option.some.inj h0)
          exact ⟨hd, ⟨by omega, by omega⟩, h0, fun x hx hx' => hused x (by omega) hx'⟩

/-- **The count** of the free clusters, when all entries can be read. -/
theorem countFreeFrom_iff (h : vol.ReadsTable d entry) (hsmall : count + n < 2 ^ 32) :
    vol.countFreeFrom c count n d = .ok m d' ↔
      d' = d ∧ (∀ x, c ≤ x → x < c + n → (entry x).isSome) ∧
        m = count + (range' c n).countP (entry · == some 0) := by
  -- the counter does not wrap, as there are fewer than `2 ^ 32` entries left
  induction n generalizing c count with
  | zero =>
    constructor
    · intro h
      obtain ⟨rfl, rfl⟩ := Outcome.ok.inj h
      refine ⟨rfl, ?_, rfl⟩
      intro x hx hx'
      omega
    · rintro ⟨rfl, -, rfl⟩
      rfl
  | succ n ih =>
    rw [countFreeFrom, range'_succ, countP_cons]
    cases hc : entry c with
    | none =>
      have hfail : vol.readFatEntry c d = .err .diskErr d := by rw [h c, hc]; rfl
      rw [Op.bind_err hfail]
      constructor
      · intro h
        cases h
      · rintro ⟨-, hall, -⟩
        have := hall c le_rfl (by omega)
        rw [hc] at this
        cases this
    | some e =>
      have hread : vol.readFatEntry c d = .ok e d := by rw [h c, hc]; rfl
      have hall : (∀ x, c + 1 ≤ x → x < c + 1 + n → (entry x).isSome) ↔
          ∀ x, c ≤ x → x < c + (n + 1) → (entry x).isSome := by
        constructor
        · intro hrest x hx hx'
          rcases Nat.eq_or_lt_of_le hx with rfl | hlt
          · rw [hc]
            rfl
          · exact hrest x hlt (by omega)
        · exact fun hrest x hx hx' => hrest x (by omega) (by omega)
      rw [Op.bind_ok hread]
      by_cases hfree : e = 0
      · subst hfree
        rw [if_pos rfl, Nat.mod_eq_of_lt (by omega), ih (by omega), hall, if_pos (by rfl)]
        exact and_congr_right fun _ => and_congr_right fun _ => by omega
      · rw [if_neg hfree, ih (by omega), hall, if_neg (by simpa using hfree)]
        exact Iff.rfl

end FatVolume.ReadsTable

end PlanckOS.Fat32
