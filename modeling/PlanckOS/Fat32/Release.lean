import PlanckOS.Fat32.Opening

/-!
# Releasing a chain

`f_unlink`, `f_open` with `FA_CREATE_ALWAYS` and `f_truncate` free the clusters of a chain: read the
link, clear it, go on where it led. There is no bound, and the table may hold cycles. The loop still
ends, since a round at a cluster with a link clears it for good: the links of the clusters that the
loop can come to become fewer (`releaseLoop_ends`). That needs the writes to change nothing else
among them. `write_fat_entry` writes the whole sector to every copy of the table, so a write is
harmless for the clusters of the first copy, while a number behind it may stand for a place in the
second copy.

The two loops that start at a cluster of the table therefore end with all links cleared
(`release_ends_iff`). `f_truncate` takes its first number from the entry of the current cluster,
which it does not check: when that lies behind the table, or on an entry of it under another number,
the result does not hold for all contents of the device.
-/

set_option autoImplicit false

namespace PlanckOS.Fat32

open Lib.Word Lib.Fallible FatVolume

variable {vol : FatVolume} {d d' : Disk} {x cur : Nat} {file : File}

/-! ## Rows of the table -/

/-- The copies of the table do not wrap around the 32-bit sector numbers. -/
structure TablesFit (vol : FatVolume) : Prop where
  region : vol.fatRegionLba < 2 ^ 32
  fats_pos : 0 < vol.numFats
  spf_pos : 0 < vol.sectorsPerFat
  fits : (vol.numFats - 1) * vol.sectorsPerFat + 2 ^ 23 ≤ 2 ^ 32

section Rows

variable {y k v : Nat}

theorem fatSector_mod (vol : FatVolume) (x : Nat) :
    vol.fatSector (x % 2 ^ 30) = vol.fatSector x := by
  rw [fatSector_row, fatSector_row, Nat.mod_mod]

theorem fatOffset_mod (x : Nat) : fatOffset (x % 2 ^ 30) = fatOffset x := by
  rw [fatOffset_column, fatOffset_column]
  omega

theorem nextOn_mod (vol : FatVolume) (d : Disk) (x : Nat) :
    vol.nextOn d (x % 2 ^ 30) = vol.nextOn d x := by
  rw [nextOn, nextOn, fatSector_mod, fatOffset_mod]

theorem setEntryOn_mod (vol : FatVolume) (d : Disk) (x v : Nat) :
    vol.setEntryOn d (x % 2 ^ 30) v = vol.setEntryOn d x v := by
  funext lba
  have hcopies : (∃ k < vol.numFats, lba = vol.copySector k (x % 2 ^ 30)) ↔
      ∃ k < vol.numFats, lba = vol.copySector k x := by
    simp only [copySector, fatSector_mod]
  rw [setEntryOn, setEntryOn, fatSector_mod, fatOffset_mod]
  exact if_congr hcopies rfl rfl

variable (hf : TablesFit vol)
include hf

/-- Copy `k` of a row is another row. -/
theorem copySector_eq_iff (hk : k < vol.numFats) (hx : x < 2 ^ 30) (hy : y < 2 ^ 30) :
    vol.fatSector y = vol.copySector k x ↔ x / 128 + k * vol.sectorsPerFat = y / 128 := by
  have hregion := hf.region
  have hlast : k * vol.sectorsPerFat ≤ (vol.numFats - 1) * vol.sectorsPerFat :=
    Nat.mul_le_mul_right _ (by omega)
  have hfits := hf.fits
  rw [copySector, fatSector_row, fatSector_row, Nat.mod_eq_of_lt hx, Nat.mod_eq_of_lt hy]
  omega

omit hf in
theorem nextOn_eq_mod (vol : FatVolume) (d : Disk) (x : Nat) :
    vol.nextOn d x = (d (vol.fatSector x)).buf.le32 (x % 128 * 4) % 2 ^ 28 := by
  rw [nextOn, fatOffset_column]
  exact Nat.and_two_pow_sub_one_eq_mod _ 28

/-- An entry that was set. -/
theorem nextOn_setEntryOn_self (d : Disk) (x v : Nat) :
    vol.nextOn (vol.setEntryOn d x v) x = v % 2 ^ 28 := by
  have hlt : x % 2 ^ 30 < 2 ^ 30 := Nat.mod_lt _ (by norm_num)
  have hcopy : vol.fatSector (x % 2 ^ 30) = vol.copySector 0 (x % 2 ^ 30) := by
    rw [copySector_eq_iff hf hf.fats_pos hlt hlt, Nat.zero_mul, Nat.add_zero]
  rw [← nextOn_mod, ← setEntryOn_mod, nextOn_eq_mod, setEntryOn, if_pos ⟨0, hf.fats_pos, hcopy⟩,
    fatOffset_column, le32_mergeEntry_self _ (by omega)]
  omega

/-- The other entries, but for those on which a copy falls. -/
theorem nextOn_setEntryOn_ne (hx : x < 2 ^ 30) (hy : y < 2 ^ 30) (hne : y ≠ x)
    (hapart : ∀ k, 1 ≤ k → k < vol.numFats → x / 128 + k * vol.sectorsPerFat ≠ y / 128) :
    vol.nextOn (vol.setEntryOn d x v) y = vol.nextOn d y := by
  rw [nextOn_eq_mod, nextOn_eq_mod, setEntryOn]
  split
  next hcopy =>
    obtain ⟨k, hk, hcopy⟩ := hcopy
    rw [copySector_eq_iff hf hk hx hy] at hcopy
    have hzero : k = 0 := by
      by_contra hpos
      exact hapart k (Nat.pos_of_ne_zero hpos) hk hcopy
    rw [hzero, Nat.zero_mul, Nat.add_zero] at hcopy
    -- the entries are in the same row
    have hsame : vol.fatSector x = vol.fatSector y := by
      rw [fatSector_row, fatSector_row, Nat.mod_eq_of_lt hx, Nat.mod_eq_of_lt hy, hcopy]
    rw [fatOffset_column, le32_mergeEntry_ne _ (by omega) (by omega), hsame]
  next => rfl

/-- An entry on which a copy falls. -/
theorem nextOn_setEntryOn_copy (hk : k < vol.numFats) (hx : x < 2 ^ 30) (hy : y < 2 ^ 30)
    (hrow : x / 128 + k * vol.sectorsPerFat = y / 128) (hcol : y % 128 ≠ x % 128) :
    vol.nextOn (vol.setEntryOn d x v) y = vol.nextOn d (x / 128 * 128 + y % 128) := by
  have hsame : vol.fatSector (x / 128 * 128 + y % 128) = vol.fatSector x := by
    rw [fatSector_row, fatSector_row]
    congr 2
    omega
  have hcolumn : (x / 128 * 128 + y % 128) % 128 = y % 128 := by omega
  rw [nextOn_eq_mod, nextOn_eq_mod, setEntryOn,
    if_pos ⟨k, hk, (copySector_eq_iff hf hk hx hy).mpr hrow⟩, fatOffset_column,
    le32_mergeEntry_ne _ (by omega) (by omega), hsame, hcolumn]

end Rows

/-! ## The clusters that a release can come to -/

section

variable (vol : FatVolume)

/-- A number below the end marks that is in the table, or any one if there is one table only. -/
def tableClusters : Finset Nat :=
  links.filter fun x => x < END_MARK ∧ (vol.numFats = 1 ∨ x < vol.sectorsPerFat * 128)

/-- A number at which the loop ends, or one of these clusters. -/
def Enters (x : Nat) : Prop := 2 ≤ x → x < END_MARK → x ∈ tableClusters vol

/-- The links of these clusters lead to such numbers. -/
def Closed (d : Disk) : Prop := ∀ y ∈ tableClusters vol, Enters vol (vol.nextOn d y)

/-- How many of the clusters have a link. -/
def linkCount (d : Disk) : Nat :=
  ((tableClusters vol).filter fun y => vol.nextOn d y ≠ 0).card

/-- The loop from `start` on comes to cluster `x`. -/
def Visited (d : Disk) (start x : Nat) : Prop :=
  2 ≤ x ∧ x < END_MARK ∧ ∃ t, Op.Rounds (releaseStep vol : Nat → DevOp Disk _) start d x t

end

section Clusters

variable {y v n : Nat}

theorem mem_tableClusters : x ∈ tableClusters vol ↔
    x < END_MARK ∧ (vol.numFats = 1 ∨ x < vol.sectorsPerFat * 128) := by
  rw [tableClusters, Finset.mem_filter, and_iff_right_iff_imp, mem_links, END_MARK]
  omega

theorem linkCount_lt (vol : FatVolume) (d : Disk) : linkCount vol d + 1 < LOOP_BOUND := by
  have hle : linkCount vol d ≤ links.card :=
    (Finset.card_filter_le _ _).trans (Finset.card_filter_le _ _)
  rw [card_links] at hle
  rw [LOOP_BOUND]
  omega

variable (hf : TablesFit vol)
include hf

/-- **A write changes one of the clusters at most**, wherever it is made. -/
theorem nextOn_setEntryOn_cluster (hy : y ∈ tableClusters vol) (hne : y ≠ x % 2 ^ 30) :
    vol.nextOn (vol.setEntryOn d x v) y = vol.nextOn d y := by
  obtain ⟨hend, htable⟩ := mem_tableClusters.mp hy
  have hlt : x % 2 ^ 30 < 2 ^ 30 := Nat.mod_lt _ (by norm_num)
  rw [END_MARK] at hend
  rw [← setEntryOn_mod]
  refine nextOn_setEntryOn_ne hf hlt (by omega) hne fun k hk hfats hrow => ?_
  rcases htable with hone | hin
  · omega
  · have hrows : vol.sectorsPerFat ≤ k * vol.sectorsPerFat := Nat.le_mul_of_pos_left _ hk
    omega

theorem nextOn_cleared (hx : x ∈ tableClusters vol) (hy : y ∈ tableClusters vol) :
    vol.nextOn (vol.setEntryOn d x 0) y = if y = x then 0 else vol.nextOn d y := by
  have hlt := (mem_tableClusters.mp hx).1
  rw [END_MARK] at hlt
  split
  next heq => rw [heq, nextOn_setEntryOn_self hf, Nat.zero_mod]
  next hne =>
    refine nextOn_setEntryOn_cluster hf hy ?_
    rwa [Nat.mod_eq_of_lt (by omega)]

/-- Clearing a link keeps the clusters closed. -/
theorem Closed.cleared (h : Closed vol d) (hx : x ∈ tableClusters vol) :
    Closed vol (vol.setEntryOn d x 0) := by
  intro y hy
  rw [nextOn_cleared hf hx hy]
  split
  next =>
    intro h2
    omega
  next => exact h y hy

/-- Clearing a link leaves fewer of them. -/
theorem linkCount_cleared (hx : x ∈ tableClusters vol) (hlink : vol.nextOn d x ≠ 0) :
    linkCount vol (vol.setEntryOn d x 0) < linkCount vol d := by
  apply Finset.card_lt_card
  have hsub : ((tableClusters vol).filter fun y => vol.nextOn (vol.setEntryOn d x 0) y ≠ 0) ⊆
      (tableClusters vol).filter fun y => vol.nextOn d y ≠ 0 := by
    intro y hy
    obtain ⟨hy, hnext⟩ := Finset.mem_filter.mp hy
    rw [nextOn_cleared hf hx hy] at hnext
    split at hnext
    next => exact absurd rfl hnext
    next => exact Finset.mem_filter.mpr ⟨hy, hnext⟩
  rw [Finset.ssubset_iff_of_subset hsub]
  refine ⟨x, Finset.mem_filter.mpr ⟨hx, hlink⟩, fun hmem => ?_⟩
  refine (Finset.mem_filter.mp hmem).2 ?_
  rw [nextOn_cleared hf hx hx, if_pos rfl]

omit hf in
/-- A round at a cluster. -/
theorem releaseStep_run (h2 : 2 ≤ x) (hend : x < END_MARK) :
    releaseStep vol x d = .ok (.next (vol.nextOn d x)) (vol.setEntryOn d x 0) := by
  rw [releaseStep, if_pos ⟨h2, hend⟩, Op.bind_ok readFatEntry_run,
    Op.bind_ok (writeFatEntry_run _ _ _ _), Op.pure_run]

/-- **The release loop ends**, with more rounds than there are links, and clears the link of every
cluster that it comes to. -/
theorem releaseLoop_ends (hclosed : Closed vol d) (hx : Enters vol x)
    (hn : 2 ≤ x → x < END_MARK → linkCount vol d + 1 < n) (hpos : 0 < n) :
    ∃ d', Op.loopM (releaseStep vol) n x d = .ok () d' ∧
      (∀ y ∈ tableClusters vol, vol.nextOn d' y = vol.nextOn d y ∨ vol.nextOn d' y = 0) ∧
      ∀ y, Visited vol d x y → y ∈ tableClusters vol ∧ vol.nextOn d' y = 0 := by
  induction n generalizing d x with
  | zero => exact absurd hpos (Nat.lt_irrefl 0)
  | succ n ih =>
    by_cases hin : 2 ≤ x ∧ x < END_MARK
    · have hmem := hx hin.1 hin.2
      have hstep : releaseStep vol x d =
          .ok (.next (vol.nextOn d x)) (vol.setEntryOn d x 0) := releaseStep_run hin.1 hin.2
      have hself : vol.nextOn (vol.setEntryOn d x 0) x = 0 := by
        rw [nextOn_cleared hf hmem hmem, if_pos rfl]
      -- the loop goes on at a cluster only if there was a link, which is now cleared
      have hfewer : 2 ≤ vol.nextOn d x → vol.nextOn d x < END_MARK →
          linkCount vol (vol.setEntryOn d x 0) + 1 < n := by
        intro h2 _
        have hlt := linkCount_cleared hf hmem (d := d) (by omega)
        have := hn hin.1 hin.2
        omega
      have hpos : 0 < n := by
        have := hn hin.1 hin.2
        omega
      obtain ⟨d', hrun, hkept, hvisited⟩ :=
        ih (hclosed.cleared hf hmem) (hclosed x hmem) hfewer hpos
      refine ⟨d', (Op.loopM_next hstep).trans hrun, ?_, ?_⟩
      · intro y hy
        rcases hkept y hy with hy' | hy'
        · rw [hy', nextOn_cleared hf hmem hy]
          split
          next => exact .inr rfl
          next => exact .inl rfl
        · exact .inr hy'
      · rintro y ⟨h2, hend, t, hround⟩
        rcases hround.head with ⟨rfl, -⟩ | ⟨x₁, d₁, hfirst, hlater⟩
        · refine ⟨hmem, ?_⟩
          rcases hkept y hmem with hy | hy
          · rw [hy, hself]
          · exact hy
        · cases hstep.symm.trans hfirst
          exact hvisited y ⟨h2, hend, t, hlater⟩
    · refine ⟨d, Op.loopM_done (releaseStep_stop hin), fun _ _ => .inl rfl, ?_⟩
      rintro y ⟨h2, hend, t, hround⟩
      rcases hround.head with ⟨rfl, -⟩ | ⟨x₁, d₁, hfirst, -⟩
      · exact absurd ⟨h2, hend⟩ hin
      · cases (releaseStep_stop hin).symm.trans hfirst

end Clusters

/-! ## The three calls -/

section

variable (vol : FatVolume)

/-- A number that is in the table or an end mark. -/
def InRange (x : Nat) : Prop := x < vol.sectorsPerFat * 128 ∨ END_MARK ≤ x

/-- The entries of the table are all in range. -/
def TableInRange (d : Disk) : Prop :=
  ∀ x < vol.sectorsPerFat * 128, InRange vol (vol.nextOn d x)

/-- The release from `start` on ends, and clears the link of every cluster it comes to. -/
def ReleasesAll (d : Disk) (start : Nat) : Prop :=
  ∃ d', releaseChain vol start d = .ok () d' ∧ ∀ x, Visited vol d start x → vol.nextOn d' x = 0

/-- `f_truncate` ends, clears the links of the clusters that its loop comes to, and leaves the end
mark at the current cluster. -/
def TruncatesAll (d : Disk) (file : File) : Prop :=
  ∃ d', fTruncate (some vol) ⟨d, file⟩ = .ok () ⟨d', file.truncated⟩ ∧
    (∀ x, Visited vol d (vol.nextOn d file.currentCluster) x → x ≠ file.currentCluster →
      vol.nextOn d' x = 0) ∧
    (2 ≤ file.currentCluster → vol.nextOn d' file.currentCluster = 0x0FFFFFFF)

/-- The entry of the current cluster is in the table under its own number, or it is one of the first
two under another number, or it lies behind all clusters and there is no other copy of the table
among the numbers below the end marks. -/
def TruncateSafe (cur : Nat) : Prop :=
  cur < END_MARK ∨ cur % 2 ^ 30 < 2 ∨
    (END_MARK ≤ cur % 2 ^ 30 ∧ (vol.numFats = 1 ∨ END_MARK ≤ vol.sectorsPerFat * 128))

end

section Calls

theorem InRange.enters (h : InRange vol x) : Enters vol x := by
  intro _ hend
  refine mem_tableClusters.mpr ⟨hend, .inr (h.resolve_right ?_)⟩
  omega

/-- With one table every number is one of the clusters. -/
theorem TableInRange.closed (h : TableInRange vol d) : Closed vol d := by
  intro y hy
  rcases (mem_tableClusters.mp hy).2 with hone | hin
  · exact fun _ hend => mem_tableClusters.mpr ⟨hend, .inl hone⟩
  · exact (h y hin).enters

variable (hf : TablesFit vol) (ht : TableInRange vol d)
include hf ht

/-- The loops of `f_unlink` and `f_open`, and the one of `f_truncate`. -/
theorem releaseChain_ends (hx : Enters vol x) : ∃ d', releaseChain vol x d = .ok () d' ∧
      ∀ y, Visited vol d x y → y ∈ tableClusters vol ∧ vol.nextOn d' y = 0 := by
  have hbound := linkCount_lt vol d
  obtain ⟨d', hrun, -, hvisited⟩ :=
    releaseLoop_ends hf ht.closed hx (fun _ _ => hbound) (Nat.lt_of_le_of_lt (Nat.zero_le _) hbound)
  exact ⟨d', hrun, hvisited⟩

omit hf ht in
/-- `f_truncate`, given its release. -/
theorem fTruncate_run (hflag : file.flags &&& FA_WRITE ≠ 0)
    (hrun : releaseChain vol (vol.nextOn d file.currentCluster) d = .ok () d') :
    fTruncate (some vol) ⟨d, file⟩ =
      .ok () ⟨if 2 ≤ file.currentCluster then vol.setEntryOn d' file.currentCluster 0x0FFFFFFF
        else d', file.truncated⟩ := by
  rw [fTruncate, Op.bind_ok (getFile_run _), if_neg hflag, Op.bind_ok (onVol_ok readFatEntry_run),
    Op.bind_ok (onVol_ok hrun)]
  split
  next =>
    rw [Op.bind_ok (onVol_ok (writeFatEntry_run _ _ _ _))]
    rfl
  next => rfl

/-- The first number of `f_truncate`'s release, when the current cluster is a safe one. -/
theorem TruncateSafe.enters (hrange : InRange vol cur) (h : TruncateSafe vol cur) :
    Enters vol (vol.nextOn d cur) := by
  rcases h with hlt | hlow | ⟨-, hcopies⟩
  · exact (ht cur (hrange.resolve_right (Nat.not_le.mpr hlt))).enters
  · have hpos := hf.spf_pos
    rw [← nextOn_mod]
    exact (ht _ (by omega)).enters
  · intro _ hend
    exact mem_tableClusters.mpr ⟨hend, hcopies.imp_right hend.trans_le⟩

/-- `f_truncate` with a safe current cluster. -/
theorem truncatesAll_of_safe (hflag : file.flags &&& FA_WRITE ≠ 0)
    (hrange : InRange vol file.currentCluster) (hsafe : TruncateSafe vol file.currentCluster) :
    TruncatesAll vol d file := by
  obtain ⟨d', hrun, hvisited⟩ := releaseChain_ends hf ht (hsafe.enters hf ht hrange)
  refine ⟨_, fTruncate_run hflag hrun, ?_, ?_⟩
  · intro x hx hne
    obtain ⟨hmem, hzero⟩ := hvisited x hx
    split
    next =>
      rw [nextOn_setEntryOn_cluster hf hmem, hzero]
      -- the number under which the mark is stored is not that of a cluster met
      rintro rfl
      have h2 := hx.1
      have hend := hx.2.1
      rcases hsafe with hlt | hlow | ⟨hhigh, -⟩
      · refine hne (Nat.mod_eq_of_lt ?_)
        rw [END_MARK] at hlt
        omega
      · omega
      · omega
    next => exact hzero
  · intro h2
    rw [if_pos h2, nextOn_setEntryOn_self hf]
    rfl

end Calls

/-! ## Where `f_truncate` fails -/

/-- The device with the word `w x` as entry `x`, also behind the table. -/
def wordsDisk (vol : FatVolume) (w : Nat → Nat) : Disk := fun lba => Sector.ofBuf fun i =>
  leByte (w ((lba + (2 ^ 32 - vol.fatRegionLba)) % 2 ^ 32 * 128 + i / 4)) (i % 4)

/-- A link of a cluster to itself. -/
def selfLink (x : Nat) : Nat → Nat := fun y => if y = x then x else 0

/-- Entry `cur` leads behind the table, to the place of entry 2 in the second copy, and from there
to cluster 3. Clusters 2 and 3 end their chains. -/
def throughCopy (vol : FatVolume) (cur : Nat) : Nat → Nat := fun y =>
  if y = cur % 2 ^ 30 then vol.sectorsPerFat * 128 + 2
  else if y = vol.sectorsPerFat * 128 + 2 then 3
  else if y = 2 ∨ y = 3 then 0x0FFFFFFF
  else 0

/-- A device on which `f_truncate` takes this way. -/
structure ThroughCopy (vol : FatVolume) (d : Disk) (cur : Nat) : Prop where
  first : vol.nextOn d cur = vol.sectorsPerFat * 128 + 2
  second : vol.nextOn d (vol.sectorsPerFat * 128 + 2) = 3
  ends : ∀ x, x = 2 ∨ x = 3 → vol.nextOn d x = 0x0FFFFFFF

section Failures

variable {w : Nat → Nat}

theorem nextOn_wordsDisk (hf : TablesFit vol) (hx : x < 2 ^ 30) :
    vol.nextOn (wordsDisk vol w) x = w x % 2 ^ 28 := by
  have hregion := hf.region
  have hrow : (vol.fatSector x + (2 ^ 32 - vol.fatRegionLba)) % 2 ^ 32 = x / 128 := by
    rw [fatSector_row]
    omega
  have hword : (wordsDisk vol w (vol.fatSector x)).buf.le32 (x % 128 * 4) = w x % 2 ^ 32 := by
    rw [wordsDisk, le32_ofBuf _ (by omega), hrow]
    refine Eq.trans (leVal_congr fun i hi => ?_) (leVal_leByte (w x) 4)
    have hindex : x / 128 * 128 + (x % 128 * 4 + i) / 4 = x := by omega
    have hbyte : (x % 128 * 4 + i) % 4 = i := by omega
    simp only [hindex, hbyte]
  rw [nextOn_eq_mod, hword]
  omega

/-- Under another number the entry of the current cluster is met and then marked. -/
theorem not_truncatesAll_alias (hf : TablesFit vol) (h2 : 2 ≤ file.currentCluster % 2 ^ 30)
    (hlt : file.currentCluster % 2 ^ 30 < END_MARK) (hcur : END_MARK ≤ file.currentCluster) :
    TableInRange vol (wordsDisk vol (selfLink (file.currentCluster % 2 ^ 30))) ∧
      ¬ TruncatesAll vol (wordsDisk vol (selfLink (file.currentCluster % 2 ^ 30))) file := by
  have hpos := hf.spf_pos
  generalize hcluster : file.currentCluster % 2 ^ 30 = e at h2 hlt
  have he : e < 2 ^ 30 := by
    rw [END_MARK] at hlt
    omega
  have hself : vol.nextOn (wordsDisk vol (selfLink e)) e = e := by
    rw [nextOn_wordsDisk hf he, selfLink, if_pos rfl]
    rw [END_MARK] at hlt
    omega
  constructor
  · -- every other entry is 0
    intro x hx
    have hxlt : x % 2 ^ 30 < 2 ^ 30 := Nat.mod_lt _ (by norm_num)
    rw [← nextOn_mod]
    by_cases hxe : x % 2 ^ 30 = e
    · rw [hxe, hself]
      exact .inl (by omega)
    · rw [nextOn_wordsDisk hf hxlt, selfLink, if_neg hxe]
      exact .inl (by omega)
  · -- the entry visited is that of the current cluster, which cannot hold 0 and an end mark
    rintro ⟨d', -, hvisited, hmark⟩
    have hstart : vol.nextOn (wordsDisk vol (selfLink e)) file.currentCluster = e := by
      rw [← nextOn_mod, hcluster, hself]
    rw [hstart] at hvisited
    have hzero := hvisited e ⟨h2, hlt, _, .start⟩ (by omega)
    have hend := hmark (by rw [END_MARK] at hcur; omega)
    rw [← nextOn_mod, hcluster, hzero] at hend
    exact absurd hend (by decide)

theorem wordsDisk_throughCopy (hf : TablesFit vol) (htable : vol.sectorsPerFat * 128 < END_MARK)
    (hindex : END_MARK ≤ cur % 2 ^ 30) : TableInRange vol (wordsDisk vol (throughCopy vol cur)) ∧
      ThroughCopy vol (wordsDisk vol (throughCopy vol cur)) cur := by
  have hpos := hf.spf_pos
  have hmod : cur % 2 ^ 30 < 2 ^ 30 := Nat.mod_lt _ (by norm_num)
  rw [END_MARK] at htable hindex
  have hends : ∀ x, x = 2 ∨ x = 3 →
      vol.nextOn (wordsDisk vol (throughCopy vol cur)) x = 0x0FFFFFFF := by
    intro x hx
    rw [nextOn_wordsDisk hf (by omega), throughCopy, if_neg (by omega), if_neg (by omega),
      if_pos hx]
    rfl
  refine ⟨fun x hx => ?_, ⟨?_, ?_, hends⟩⟩
  · by_cases hend : x = 2 ∨ x = 3
    · rw [hends x hend]
      exact .inr (by decide)
    · rw [nextOn_wordsDisk hf (by omega), throughCopy, if_neg (by omega), if_neg (by omega),
        if_neg hend]
      exact .inl (by omega)
  · rw [← nextOn_mod, nextOn_wordsDisk hf hmod, throughCopy, if_pos rfl]
    omega
  · rw [nextOn_wordsDisk hf (by omega), throughCopy, if_neg (by omega), if_pos rfl]
    rfl

/-- The release on such a device: one round at the place in the second copy, one at cluster 3. -/
theorem ThroughCopy.release (h : ThroughCopy vol d cur) (hf : TablesFit vol)
    (htable : vol.sectorsPerFat * 128 < END_MARK) : releaseChain vol (vol.nextOn d cur) d =
        .ok () (vol.setEntryOn (vol.setEntryOn d (vol.sectorsPerFat * 128 + 2) 0) 3 0) ∧
      vol.nextOn (vol.setEntryOn d (vol.sectorsPerFat * 128 + 2) 0) 2 = 0x0FFFFFFF := by
  have hpos := hf.spf_pos
  rw [END_MARK] at htable
  have hkeeps : ∀ x, x = 2 ∨ x = 3 →
      vol.nextOn (vol.setEntryOn d (vol.sectorsPerFat * 128 + 2) 0) x = 0x0FFFFFFF := by
    intro x hx
    rw [nextOn_setEntryOn_ne hf (by omega) (by omega) (by omega), h.ends x hx]
    intro k _ _
    omega
  refine ⟨?_, hkeeps 2 (.inl rfl)⟩
  -- three rounds: the word in the copy, cluster 3, and its end mark
  have hround₁ : releaseStep vol (vol.sectorsPerFat * 128 + 2) d =
      .ok (.next (vol.nextOn d (vol.sectorsPerFat * 128 + 2)))
        (vol.setEntryOn d (vol.sectorsPerFat * 128 + 2) 0) :=
    releaseStep_run (by omega) (by rw [END_MARK]; omega)
  rw [h.second] at hround₁
  have hround₂ : (releaseStep vol 3 : DevOp Disk _)
      (vol.setEntryOn d (vol.sectorsPerFat * 128 + 2) 0) =
        .ok (.next (vol.nextOn (vol.setEntryOn d (vol.sectorsPerFat * 128 + 2) 0) 3))
          (vol.setEntryOn (vol.setEntryOn d (vol.sectorsPerFat * 128 + 2) 0) 3 0) :=
    releaseStep_run (by decide) (by decide)
  rw [hkeeps 3 (.inr rfl)] at hround₂
  have hstop : (releaseStep vol 0x0FFFFFFF : DevOp Disk _)
      (vol.setEntryOn (vol.setEntryOn d (vol.sectorsPerFat * 128 + 2) 0) 3 0) = .ok (.done ()) _ :=
    releaseStep_stop (by decide)
  obtain ⟨n, hbound⟩ : ∃ n, LOOP_BOUND = n + 3 :=
    ⟨LOOP_BOUND - 3, by have := loopBound_gt; omega⟩
  rw [releaseChain, hbound, h.first]
  exact (Op.loopM_next hround₁).trans ((Op.loopM_next hround₂).trans (Op.loopM_done hstop))

/-- **The entry that was cleared first comes back**: freeing cluster 3 rewrites the second copy of
its row from the first one. -/
theorem ThroughCopy.revives (h : ThroughCopy vol d file.currentCluster) (hf : TablesFit vol)
    (hfats : 2 ≤ vol.numFats) (htable : vol.sectorsPerFat * 128 < END_MARK)
    (hflag : file.flags &&& FA_WRITE ≠ 0) (hindex : END_MARK ≤ file.currentCluster % 2 ^ 30) :
    ∃ d', fTruncate (some vol) ⟨d, file⟩ = .ok () ⟨d', file.truncated⟩ ∧
      vol.nextOn d' (vol.sectorsPerFat * 128 + 2) = 0x0FFFFFFF := by
  obtain ⟨hrelease, hsecond⟩ := h.release hf htable
  have hpos := hf.spf_pos
  have hmod : file.currentCluster % 2 ^ 30 < 2 ^ 30 := Nat.mod_lt _ (by norm_num)
  have hle : file.currentCluster % 2 ^ 30 ≤ file.currentCluster := Nat.mod_le _ _
  rw [END_MARK] at htable hindex
  refine ⟨_, fTruncate_run hflag hrelease, ?_⟩
  have hmark : ∀ k, 1 ≤ k → k < vol.numFats → file.currentCluster % 2 ^ 30 / 128 +
      k * vol.sectorsPerFat ≠ (vol.sectorsPerFat * 128 + 2) / 128 := by
    intro k hk _
    have hrows : vol.sectorsPerFat ≤ k * vol.sectorsPerFat := Nat.le_mul_of_pos_left _ hk
    omega
  have hrow : 3 / 128 + 1 * vol.sectorsPerFat = (vol.sectorsPerFat * 128 + 2) / 128 := by omega
  have hcolumn : 3 / 128 * 128 + (vol.sectorsPerFat * 128 + 2) % 128 = 2 := by omega
  rw [if_pos (by omega), ← setEntryOn_mod, nextOn_setEntryOn_ne hf hmod (by omega) (by omega) hmark,
    nextOn_setEntryOn_copy hf hfats (by decide) (by omega) hrow (by omega), hcolumn, hsecond]

end Failures

/-- **Releasing a chain ends with all links cleared**, for every content of a table whose entries
are in range, when it starts at a number in range. For `f_truncate` this holds for all contents
exactly when the current cluster is a safe one. -/
theorem release_ends_iff (vol : FatVolume) (hf : TablesFit vol) :
    (∀ d start, TableInRange vol d → InRange vol start → ReleasesAll vol d start) ∧
    ∀ file : File, file.flags &&& FA_WRITE ≠ 0 → InRange vol file.currentCluster →
      ((∀ d, TableInRange vol d → TruncatesAll vol d file) ↔
        TruncateSafe vol file.currentCluster) := by
  constructor
  · intro d start ht hstart
    obtain ⟨d', hrun, hvisited⟩ := releaseChain_ends hf ht hstart.enters
    exact ⟨d', hrun, fun x hx => (hvisited x hx).2⟩
  · intro file hflag hrange
    refine ⟨fun hall => ?_, fun hsafe d ht => truncatesAll_of_safe hf ht hflag hrange hsafe⟩
    by_contra hunsafe
    rw [TruncateSafe, not_or, not_or] at hunsafe
    obtain ⟨hcur, hlow, hhigh⟩ := hunsafe
    by_cases hindex : END_MARK ≤ file.currentCluster % 2 ^ 30
    · -- behind the table: a content that leads through the second copy
      obtain ⟨hfats, htable⟩ := not_or.mp fun h => hhigh ⟨hindex, h⟩
      have hpos := hf.fats_pos
      obtain ⟨ht, hthrough⟩ := wordsDisk_throughCopy hf (Nat.not_le.mp htable) hindex
      obtain ⟨d', hrun, hrevived⟩ :=
        hthrough.revives hf (by omega) (Nat.not_le.mp htable) hflag hindex
      obtain ⟨d₁, hrun₁, hvisited, -⟩ := hall _ ht
      cases hrun.symm.trans hrun₁
      rw [hthrough.first] at hvisited
      have hlt : vol.sectorsPerFat * 128 + 2 < END_MARK := by
        rw [END_MARK] at htable ⊢
        omega
      have hzero := hvisited _ ⟨by omega, hlt, _, .start⟩ (by omega)
      rw [hzero] at hrevived
      exact absurd hrevived (by decide)
    · -- in the table: the current cluster is an entry under another number
      obtain ⟨ht, hnot⟩ := not_truncatesAll_alias hf (by omega) (Nat.not_le.mp hindex)
        (Nat.not_lt.mp hcur)
      exact hnot (hall _ ht)

/-- Two tables of one sector. -/
def twoTables : FatVolume := { tinyVol with numFats := 2, dataRegionLba := 3 }

theorem twoTables_fit : TablesFit twoTables where
  region := by decide
  fats_pos := by decide
  spf_pos := by decide
  fits := by decide

/-- With a current cluster of the table, and a cycle through it, `f_truncate` ends as it should. -/
theorem release_ends_iff_cycle : ReleasesAll twoTables (wordsDisk twoTables (selfLink 5)) 5 ∧
      TruncatesAll twoTables (wordsDisk twoTables (selfLink 5)) (newFile FA_WRITE (2, 0) 5) := by
  have htable : TableInRange twoTables (wordsDisk twoTables (selfLink 5)) := by
    intro x hx
    have hlt : x < 128 := hx
    rw [nextOn_wordsDisk twoTables_fit (by omega), selfLink]
    split
    · exact .inl (by decide)
    · exact .inl (by decide)
  obtain ⟨hrelease, htruncate⟩ := release_ends_iff twoTables twoTables_fit
  have hrange : InRange twoTables 5 := .inl (by decide)
  exact ⟨hrelease _ 5 htable hrange,
    (htruncate (newFile FA_WRITE (2, 0) 5) (by decide) hrange).mpr (.inl (by decide)) _ htable⟩

/-- The current cluster is the end mark `0x0FFFFFF8`. Its entry, behind the tables, leads to number
130, which stands for entry 2 of the second table. After `f_truncate` that entry, visited and
cleared first, holds an end mark. -/
theorem truncate_revives_copy : let d := wordsDisk twoTables (throughCopy twoTables 0x0FFFFFF8)
    TablesFit twoTables ∧ TableInRange twoTables d ∧ InRange twoTables 0x0FFFFFF8 ∧
    Visited twoTables d (twoTables.nextOn d 0x0FFFFFF8) 130 ∧
    ∃ d', fTruncate (some twoTables) ⟨d, newFile FA_WRITE (2, 0) 0x0FFFFFF8⟩ =
        .ok () ⟨d', (newFile FA_WRITE (2, 0) 0x0FFFFFF8).truncated⟩ ∧
      twoTables.nextOn d' 130 = 0x0FFFFFFF := by
  have hindex : END_MARK ≤ 0x0FFFFFF8 % 2 ^ 30 := by decide
  obtain ⟨ht, hthrough⟩ := wordsDisk_throughCopy twoTables_fit (by decide) hindex
  refine ⟨twoTables_fit, ht, .inr (by decide), ?_, ?_⟩
  · rw [hthrough.first]
    exact ⟨by decide, by decide, _, .start⟩
  · have hfile : ThroughCopy twoTables (wordsDisk twoTables (throughCopy twoTables 0x0FFFFFF8))
        (newFile FA_WRITE (2, 0) 0x0FFFFFF8).currentCluster := hthrough
    exact hfile.revives twoTables_fit (by decide) (by decide) (by decide) (by decide)

end PlanckOS.Fat32
