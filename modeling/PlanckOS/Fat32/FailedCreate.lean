import PlanckOS.Fat32.Opening

/-!
# Calls that fail to create an entry

`f_open` and `f_mkdir` allocate the cluster of the new entry before they look for a slot. When the
search fails, the cluster stays allocated. This is the only way in which a failing call changes the
device (`failed_create_iff`), and the theorem holds for every path, also for one that leads to
clusters outside of the tree. Therefore the lookups are described on the device itself, by what the
driver reads of any cluster number: `FullDir` says that the search for a slot passes used slots only
until the chain ends, and `marked` and `withDirectory` are the devices after the writes in front of
the search. For a directory of the tree `fullDir_marked_iff` gives this in terms of the image before
the call.
-/

set_option autoImplicit false

namespace PlanckOS.Fat32

open Lib.Word Lib.Fallible FatVolume List

variable {vol : FatVolume} {d d' : Disk} {c n new : Nat}

/-! ## The search for a slot -/

/-- Every slot of the cluster is in use. -/
def UsedUp (vol : FatVolume) (d : Disk) (c : Nat) : Prop :=
  ∀ i < vol.slotsPerCluster, ¬ Vacant (entryAt (vol.clusterOn d c) i)

/-- From cluster `c` on all slots are in use, up to the end of the chain. -/
inductive FullDir (vol : FatVolume) (d : Disk) : Nat → Prop
  | last {c : Nat} (hused : UsedUp vol d c) (hend : END_MARK ≤ vol.nextOn d c) : FullDir vol d c
  | more {c : Nat} (hused : UsedUp vol d c) (hmore : ¬ END_MARK ≤ vol.nextOn d c)
      (h : FullDir vol d (vol.nextOn d c)) : FullDir vol d c

section Search

variable {l : List Nat}

theorem freeSlot_eq_none_iff {buf : Buf} {i : Nat} :
    freeSlot buf i n = none ↔ ∀ j, i ≤ j → j < i + n → ¬ Vacant (entryAt buf j) := by
  constructor
  · exact freeSlot_none
  · intro h
    cases hfree : freeSlot buf i n with
    | none => rfl
    | some idx =>
      obtain ⟨k, rfl, hk, hvac, -⟩ := freeSlot_found hfree
      exact absurd hvac (h _ (Nat.le_add_right _ _) (by omega))

theorem freeSlot_none_iff :
    freeSlot (vol.clusterOn d c) 0 vol.slotsPerCluster = none ↔ UsedUp vol d c := by
  rw [freeSlot_eq_none_iff, UsedUp]
  constructor
  · exact fun h i hi => h i (Nat.zero_le i) (by omega)
  · exact fun h j _ hj => h j (by omega)

/-- A round of the search at a cluster without a vacant slot. -/
theorem findSlotStep_used (hused : UsedUp vol d c) : findSlotStep vol c d =
      if END_MARK ≤ vol.nextOn d c then .err .diskErr d else .ok (.next (vol.nextOn d c)) d := by
  rw [findSlotStep, Op.bind_ok readCluster_run, freeSlot_none_iff.mpr hused]
  simp only
  rw [Op.bind_ok readFatEntry_run]
  split <;> rfl

/-- A search that fails has passed used slots only. -/
theorem fullDir_of_err {e : FError}
    (h : Op.loopM (findSlotStep vol) n c d = .err e d') : FullDir vol d c := by
  induction n generalizing c with
  | zero => cases h
  | succ n ih =>
    by_cases hused : UsedUp vol d c
    · by_cases hend : END_MARK ≤ vol.nextOn d c
      · exact .last hused hend
      · refine .more hused hend (ih ?_)
        have hstep := findSlotStep_used hused
        rw [if_neg hend] at hstep
        exact (Op.loopM_next hstep).symm.trans h
    · -- the round ends with a slot
      cases hfree : freeSlot (vol.clusterOn d c) 0 vol.slotsPerCluster with
      | none => exact absurd (freeSlot_none_iff.mp hfree) hused
      | some idx =>
        have hstep : findSlotStep vol c d = .ok (.done (c, idx, vol.clusterOn d c)) d := by
          rw [findSlotStep, Op.bind_ok readCluster_run, hfree]
          rfl
        cases (Op.loopM_done hstep).symm.trans h

/-- The clusters that the search passes. -/
theorem FullDir.chain (h : FullDir vol d c) (hc : c < END_MARK) :
    ∃ l, vol.ChainOn d c l ∧ ∀ x ∈ l, UsedUp vol d x := by
  induction h with
  | last hused hend => exact ⟨_, .last hc hend, fun x hx => mem_singleton.mp hx ▸ hused⟩
  | more hused hmore _ ih =>
    obtain ⟨l, hl, hall⟩ := ih (Nat.not_le.mp hmore)
    refine ⟨_, .link hc hl, fun x hx => ?_⟩
    rcases mem_cons.mp hx with rfl | hx
    · exact hused
    · exact hall x hx

/-- Along a chain of used clusters the search fails. -/
theorem findSlot_of_chain (hl : vol.ChainOn d c l)
    (hall : ∀ x ∈ l, UsedUp vol d x) (hn : l.length ≤ n) :
    Op.loopM (findSlotStep vol) n c d = .err .diskErr d := by
  induction hl generalizing n with
  | @last a _ hs =>
    obtain ⟨n, rfl⟩ : ∃ m, n = m + 1 := ⟨n - 1, by rw [length_singleton] at hn; omega⟩
    have hstep := findSlotStep_used (hall a mem_cons_self)
    rw [if_pos hs] at hstep
    exact Op.loopM_err hstep
  | @link a l _ hl ih =>
    obtain ⟨n, rfl⟩ : ∃ m, n = m + 1 := ⟨n - 1, by rw [length_cons] at hn; omega⟩
    have hstep := findSlotStep_used (hall a mem_cons_self)
    rw [if_neg (Nat.not_le.mpr hl.head_valid)] at hstep
    refine (Op.loopM_next hstep).trans (ih (fun x hx => hall x (mem_cons_of_mem _ hx)) ?_)
    rw [length_cons] at hn
    omega

/-- **The search fails exactly in a full directory**, and changes nothing. -/
theorem findSlot_err_iff : (∃ e d', findSlot vol c d = .err e d') ↔ FullDir vol d c := by
  constructor
  · rintro ⟨e, d', h⟩
    exact fullDir_of_err h
  · intro h
    obtain ⟨n, hbound⟩ := loopBound_succ
    have hn : END_MARK ≤ n := by
      have := loopBound_gt
      rw [END_MARK]
      omega
    refine ⟨.diskErr, d, ?_⟩
    rw [findSlot, hbound]
    cases h with
    | last hused hend =>
      have hstep := findSlotStep_used hused
      rw [if_pos hend] at hstep
      exact Op.loopM_err hstep
    | more hused hmore h =>
      have hstep := findSlotStep_used hused
      rw [if_neg hmore] at hstep
      obtain ⟨l, hl, hall⟩ := h.chain (Nat.not_le.mp hmore)
      refine (Op.loopM_next hstep).trans (findSlot_of_chain hl hall ?_)
      exact hl.length_le.trans hn

theorem findSlot_failed (vol : FatVolume) (d : Disk) (c : Nat) :
    (findSlot vol c d).Sat (fun _ _ => True) fun _ _ => FullDir vol d c := by
  cases hslot : findSlot vol c d with
  | ok r d' => trivial
  | err e d' => exact findSlot_err_iff.mp ⟨e, d', hslot⟩
  | fault w => trivial

end Search

/-! ## The search for a cluster -/

/-- Cluster `new` is the first free one of the table. -/
structure FirstFree (vol : FatVolume) (d : Disk) (new : Nat) : Prop where
  valid : vol.Valid new
  free : vol.nextOn d new = 0
  used : ∀ x, 2 ≤ x → x < new → vol.nextOn d x ≠ 0

theorem findFreeFrom_iff : vol.findFreeFrom c n d = .ok new d' ↔
    d' = d ∧ (c ≤ new ∧ new < c + n) ∧ vol.nextOn d new = 0 ∧
      ∀ x, c ≤ x → x < new → vol.nextOn d x ≠ 0 := by
  rw [(readsTable_disk vol d).findFreeFrom_iff]
  simp only [Option.some.injEq, exists_eq_left']

theorem findFreeCluster_iff (hg : Geometry vol) :
    vol.findFreeCluster d = .ok new d' ↔ d' = d ∧ FirstFree vol d new := by
  have hroot := hg.root_valid
  have hsum : 2 + (vol.maxCluster - 2) = vol.maxCluster := by
    have := hroot.1
    have := hroot.2
    omega
  rw [findFreeCluster, findFreeFrom_iff, hsum]
  constructor
  · rintro ⟨hd, hv, h0, hused⟩
    exact ⟨hd, hv, h0, hused⟩
  · rintro ⟨hd, hv, h0, hused⟩
    exact ⟨hd, hv, h0, hused⟩

/-- The device with the first free cluster marked as the end of a chain. -/
def marked (vol : FatVolume) (d : Disk) (new : Nat) : Disk := vol.setEntryOn d new 0x0FFFFFFF

/-- **Allocation** marks the first free cluster, or fails and changes nothing. -/
theorem allocCluster_run (hg : Geometry vol) (h : FirstFree vol d new) :
    allocCluster vol d = .ok new (marked vol d new) := by
  rw [allocCluster, Op.bind_ok ((findFreeCluster_iff hg).mpr ⟨rfl, h⟩),
    Op.bind_ok (writeFatEntry_run _ _ _ _)]
  rfl

theorem allocCluster_first (hg : Geometry vol) : (allocCluster vol d).Sat
    (fun new d' => FirstFree vol d new ∧ d' = marked vol d new) fun _ d' => d' = d := by
  rw [allocCluster]
  apply sat_bind
  cases hout : vol.findFreeCluster d with
  | ok new d' =>
    obtain ⟨rfl, hfirst⟩ := (findFreeCluster_iff hg).mp hout
    apply sat_bind_ok (writeFatEntry_run _ _ _ _)
    exact ⟨hfirst, rfl⟩
  | err e d' => exact (findFreeFrom_readOnly vol _ _).of_err hout
  | fault w => trivial

/-! ## The failing calls -/

/-- Nothing was found under the last component `name` of the path, in the directory `c`. -/
def NotFound (vol : FatVolume) (d : Disk) (path : Bytes) (c : Nat) (name : Bytes) : Prop :=
  resolvePath vol path d = .ok (c, name) d ∧ vol.findEntryInDir c name d = .ok none d

/-- The device on which `f_mkdir` looks for a slot. -/
def withDirectory (vol : FatVolume) (d : Disk) (new parent : Nat) : Disk :=
  vol.setClusterOn (marked vol d new) new (freshDirectory new parent)

/-- If `f_open` creates an entry at all, there is a slot for it or no cluster. -/
def OpenFits (vol : FatVolume) (path : Bytes) (flags : Nat) (d : Disk) : Prop :=
  flags &&& (FA_CREATE_NEW ||| FA_CREATE_ALWAYS ||| FA_OPEN_ALWAYS) ≠ 0 →
    ∀ c name new, NotFound vol d path c name → FirstFree vol d new →
      ¬ FullDir vol (marked vol d new) c

/-- The same for `f_mkdir` and a name that it accepts. -/
def MkdirFits (vol : FatVolume) (path : Bytes) (d : Disk) : Prop :=
  ∀ c name new, NotFound vol d path c name → name ≠ [] → name.length ≤ 11 → FirstFree vol d new →
    ¬ FullDir vol (withDirectory vol d new c) c

section Calls

variable {path name : Bytes} {flags : Nat}

/-- Opening an entry that exists fails with `FA_CREATE_NEW` only. -/
theorem openExisting_failed (p : Nat × Nat) :
    (openExisting vol flags p.1 p.2 d).Sat (fun _ _ => True)
      fun _ d' => d' = d := by
  have hrelease : ∀ a (d₀ : Disk), (releaseChain vol a d₀).Sat (fun _ _ => True)
      fun _ _ => False := by
    intro a d₀
    refine sat_loopM (I := fun _ _ => True) ?_ trivial
    intro b d₁ _
    rw [releaseStep]
    split
    · apply sat_bind_ok readFatEntry_run
      apply sat_bind_ok (writeFatEntry_run _ _ _ _)
      trivial
    · trivial
  rw [openExisting]
  split
  · exact rfl
  apply sat_bind
  refine (readEntryData_readOnly vol p.1 p.2 d).mono ?_ fun _ _ h => h
  rintro e d' rfl
  split
  · apply sat_bind
    exact (hrelease _ _).mono (fun _ _ _ => trivial) fun _ _ h => h.elim
  · trivial

variable (hg : Geometry vol)
include hg

/-- How `f_open` can fail after a lookup without result. -/
theorem openMissing_failed :
    (openMissing vol flags c name d).Sat (fun _ _ => True) fun _ d' => d' = d ∨
      flags &&& (FA_CREATE_NEW ||| FA_CREATE_ALWAYS ||| FA_OPEN_ALWAYS) ≠ 0 ∧
      ∃ new, FirstFree vol d new ∧ FullDir vol (marked vol d new) c := by
  rw [openMissing]
  split
  · exact .inl rfl
  next hflags =>
    apply sat_bind
    refine (allocCluster_first hg).mono ?_ fun _ _ h => .inl h
    rintro new d₁ ⟨hfirst, rfl⟩
    apply sat_bind
    refine (findSlot_failed vol _ c).mono ?_ fun _ _ h => .inr ⟨hflags, new, hfirst, h⟩
    rintro ⟨dest, idx, buf⟩ d₂ -
    obtain ⟨d₃, hwrite⟩ := writeCluster_ok vol dest (storeStart ((buf.store (idx * DIR_SIZE)
      (encodeName name)).set (idx * DIR_SIZE + 0x0B) 0x20) (idx * DIR_SIZE) new) d₂
    exact sat_bind_ok hwrite trivial

/-- In a full directory it fails behind the allocation. -/
theorem openMissing_full (name : Bytes)
    (hflags : flags &&& (FA_CREATE_NEW ||| FA_CREATE_ALWAYS ||| FA_OPEN_ALWAYS) ≠ 0)
    (hfirst : FirstFree vol d new) (hfull : FullDir vol (marked vol d new) c) :
    ∃ e, openMissing vol flags c name d = .err e (marked vol d new) := by
  obtain ⟨e, d', hslot⟩ := findSlot_err_iff.mpr hfull
  obtain rfl := (findSlot_readOnly vol c).of_err hslot
  refine ⟨e, ?_⟩
  rw [openMissing, if_neg hflags, Op.bind_ok (allocCluster_run hg hfirst)]
  exact Op.bind_err hslot

/-- How `f_mkdir` can fail behind its checks. -/
theorem mkdirAt_failed : (mkdirAt vol c name d).Sat (fun _ _ => True) fun _ d' => d' = d ∨
      ∃ new, FirstFree vol d new ∧ FullDir vol (withDirectory vol d new c) c := by
  rw [mkdirAt]
  apply sat_bind
  refine (allocCluster_first hg).mono ?_ fun _ _ h => .inl h
  rintro new d₁ ⟨hfirst, rfl⟩
  apply sat_bind_ok (writeCluster_valid hg hfirst.valid _)
  apply sat_bind
  refine (findSlot_failed vol _ c).mono ?_ fun _ _ h => .inr ⟨new, hfirst, h⟩
  rintro ⟨dest, idx, buf⟩ d₂ -
  obtain ⟨d₃, hwrite⟩ := writeCluster_ok vol dest (storeStart ((storeDirName buf (idx * DIR_SIZE)
    name).set (idx * DIR_SIZE + 0x0B) 0x10) (idx * DIR_SIZE) new) d₂
  exact sat_of_ok hwrite trivial

/-- In a full directory it fails behind the allocation. -/
theorem mkdirAt_full (name : Bytes) (hfirst : FirstFree vol d new)
    (hfull : FullDir vol (withDirectory vol d new c) c) :
    ∃ e, mkdirAt vol c name d = .err e (withDirectory vol d new c) := by
  obtain ⟨e, d', hslot⟩ := findSlot_err_iff.mpr hfull
  obtain rfl := (findSlot_readOnly vol c).of_err hslot
  refine ⟨e, ?_⟩
  rw [mkdirAt, Op.bind_ok (allocCluster_run hg hfirst),
    Op.bind_ok (writeCluster_valid hg hfirst.valid _)]
  exact Op.bind_err hslot

end Calls

/-- Marking a cluster, and writing its bytes, changes the device. -/
theorem marked_ne (hg : Geometry vol) (hfirst : FirstFree vol d new) (parent : Nat) :
    marked vol d new ≠ d ∧ withDirectory vol d new parent ≠ d := by
  have hmax := hg.maxCluster_eq
  have hnew := hfirst.valid.2
  have hdata := hg.data_pos
  have hregion := hg.data_eq
  have hfats := Nat.le_mul_of_pos_left vol.sectorsPerFat hg.fats_pos
  have hsector := setEntryOn_ne hg.fats_pos (by omega) hfirst.free
  refine ⟨fun heq => hsector (congrFun heq _), fun heq => hsector ?_⟩
  -- the table lies in front of the data
  have hbefore : vol.fatSector new < vol.clusterToLba new := by
    rw [hg.fatSector_eq hnew, hg.clusterToLba_eq hfirst.valid]
    omega
  have hkept : withDirectory vol d new parent (vol.fatSector new) =
      marked vol d new (vol.fatSector new) :=
    if_neg fun h => Nat.not_lt.mpr h.1 hbefore
  exact hkept.symm.trans (congrFun heq _)

/-- **A failed create changes nothing exactly when there is a slot, or no cluster.** For every path,
every set of flags and every content of the volume. -/
theorem failed_create_iff (vol : FatVolume) (d : Disk) (path : Bytes) (flags : Nat)
    (hg : Geometry vol) : ((∀ e d', fOpen (some vol) path flags d = .err e d' → d' = d) ↔
      OpenFits vol path flags d) ∧
    ((∀ e d', fMkdir (some vol) path d = .err e d' → d' = d) ↔ MkdirFits vol path d) := by
  refine ⟨⟨?_, ?_⟩, ⟨?_, ?_⟩⟩
  -- with a free cluster and no slot the call marks the cluster and then fails
  · intro h hflags c name new ⟨hpath, hfind⟩ hfirst hfull
    obtain ⟨e, hmissing⟩ := openMissing_full hg name hflags hfirst hfull
    refine (marked_ne hg hfirst c).1 (h e _ ?_)
    rw [fOpen, withVol, openVol, Op.bind_ok hpath]
    exact (Op.bind_ok hfind).trans hmissing
  · intro hfits e d' herr
    have hsat : (fOpen (some vol) path flags d).Sat (fun _ _ => True) fun _ d' => d' = d := by
      rw [fOpen, withVol, openVol]
      refine (resolvePath_readOnly vol path).sat_bind ?_ fun _ => rfl
      rintro ⟨c, name⟩ hpath
      refine (findEntryInDir_readOnly vol c name).sat_bind ?_ fun _ => rfl
      rintro (_ | p) hfind
      · refine (openMissing_failed hg).mono (fun _ _ _ => trivial) ?_
        rintro e d' (rfl | ⟨hflags, new, hfirst, hfull⟩)
        · rfl
        · exact absurd hfull (hfits hflags c name new ⟨hpath, hfind⟩ hfirst)
      · exact openExisting_failed p
    exact hsat.of_err herr
  · intro h c name new ⟨hpath, hfind⟩ hne hlen hfirst hfull
    obtain ⟨e, hmkdir⟩ := mkdirAt_full hg name hfirst hfull
    refine (marked_ne hg hfirst c).2 (h e _ ?_)
    rw [fMkdir, withVol, Op.bind_ok hpath]
    simp only [if_neg hne, if_neg (Nat.not_lt.mpr hlen)]
    exact (Op.bind_ok hfind).trans hmkdir
  · intro hfits e d' herr
    have hsat : (fMkdir (some vol) path d).Sat (fun _ _ => True) fun _ d' => d' = d := by
      rw [fMkdir, withVol]
      refine (resolvePath_readOnly vol path).sat_bind ?_ fun _ => rfl
      rintro ⟨c, name⟩ hpath
      simp only
      split
      · exact rfl
      next hne =>
        split
        · exact rfl
        next hlen =>
          refine (findEntryInDir_readOnly vol c name).sat_bind ?_ fun _ => rfl
          rintro (_ | p) hfind
          · refine (mkdirAt_failed hg).mono (fun _ _ _ => trivial) ?_
            rintro e d' (rfl | ⟨new, hfirst, hfull⟩)
            · rfl
            · exact absurd hfull (hfits c name new ⟨hpath, hfind⟩ hne (Nat.not_lt.mp hlen) hfirst)
          · exact rfl
    exact hsat.of_err herr

/-! ## Directories of the tree -/

section Tree

variable {img : Image}

/-- A directory of the tree is full when it has no vacant slot. -/
theorem fullDir_iff (hg : Geometry vol) (hv : view vol d = img) (ht : TreeOk vol img)
    (hc : DirCluster vol img c) : FullDir vol d c ↔ ∀ p, ¬ FirstVacant vol img c p := by
  obtain ⟨l, hl⟩ := ht c hc
  have hreturns := findSlot_chain hg hv hl
  constructor
  · intro hfull
    obtain ⟨e, d', hslot⟩ := findSlot_err_iff.mpr hfull
    rw [hslot] at hreturns
    exact hreturns.2
  · intro hnone
    cases hslot : findSlot vol c d with
    | ok r d' =>
      rw [hslot] at hreturns
      exact absurd hreturns.2.1 (hnone _)
    | err e d' => exact findSlot_err_iff.mp ⟨e, d', hslot⟩
    | fault w =>
      rw [hslot] at hreturns
      exact hreturns.elim

variable (hg : Geometry vol) (hs : Shows vol d img) (ht : TreeOk vol img)
  (hc : DirCluster vol img c) (hfirst : FirstFree vol d new)
include hg hs ht hc hfirst

/-- **For a directory of the tree** the slots before the call decide. -/
theorem fullDir_marked_iff : (FullDir vol (marked vol d new) c ↔ ∀ p, ¬ FirstVacant vol img c p) ∧
    (FullDir vol (withDirectory vol d new c) c ↔ ∀ p, ¬ FirstVacant vol img c p) := by
  have hv := hfirst.valid
  have hfree : img.next new = 0 := by
    have hrun := (readFatEntry_shows hg hs.view_eq hv.2).symm.trans readFatEntry_run
    rw [(Outcome.ok.inj hrun).1, hfirst.free]
  have hold : ∀ x, img.next x ≠ 0 → x ≠ new := by
    rintro x hx rfl
    exact hx hfree
  -- both devices differ from the one before in a free cluster only
  have hiff : ∀ {d' : Disk} {img' : Image}, Shows vol d' img' → Spares img img' →
      (FullDir vol d' c ↔ ∀ p, ¬ FirstVacant vol img c p) := by
    intro d' img' hs' hspares
    obtain ⟨m, hm⟩ := ht c hc
    rw [fullDir_iff hg hs'.view_eq (hspares.treeOk ht) ((hspares.dirCluster_iff ht).mpr hc)]
    exact forall_congr' fun p => not_congr (hspares.firstVacant_iff hg hm)
  have hs₁ : Shows vol (marked vol d new) (img.mark new) := by
    obtain ⟨d', hrun, hs'⟩ := writeFatEntry_shows (v := 0x0FFFFFFF) hg hs hv.2
    obtain ⟨-, rfl⟩ := Outcome.ok.inj (hrun.symm.trans (writeFatEntry_run vol d new 0x0FFFFFFF))
    exact hs'
  have hs₂ : Shows vol (withDirectory vol d new c)
      ((img.mark new).setData new (vol.clip (freshDirectory new c))) := by
    obtain ⟨d', hrun, hs'⟩ := writeCluster_shows hg hs₁ hv (freshDirectory new c)
    obtain ⟨-, rfl⟩ := Outcome.ok.inj (hrun.symm.trans (writeCluster_valid hg hv _))
    exact hs'
  refine ⟨hiff hs₁ (.mark hfree), hiff hs₂ ?_⟩
  exact fun x hx => ⟨img.setEntry_ne (hold x hx), Image.setData_ne _ (hold x hx)⟩

end Tree

/-! ### A volume without a free cluster and a full directory -/

/-- Every entry of the table is an end mark, and the root directory is empty. -/
def packedDisk : Disk := fun lba =>
  if lba = 1 then Sector.ofBuf fun i => leByte 0x0FFFFFFF (i % 4) else sectorOf []

/-- The new entry fails without a free cluster, and on the second sample volume there is a slot. -/
theorem failed_create_iff_packed :
    (∃ d', fOpen (some tinyVol) [0x2F, 0x58] FA_CREATE_NEW packedDisk = .err .mkfsAborted d' ∧
      d' = packedDisk) ∧
    (∃ d', fMkdir (some tinyVol) [0x2F, 0x58] packedDisk = .err .mkfsAborted d' ∧
      d' = packedDisk) ∧
    ∀ e d', fOpen (some tinyVol) [0x2F, 0x58] FA_CREATE_NEW secondDisk = .err e d' →
      d' = secondDisk := by
  have hnone : ∀ new, ¬ FirstFree tinyVol packedDisk new := by
    intro new hfirst
    have hall : ∀ x < 128, tinyVol.nextOn packedDisk x ≠ 0 := by decide +kernel
    exact hall new hfirst.valid.2 hfirst.free
  have hpacked := failed_create_iff tinyVol packedDisk [0x2F, 0x58] FA_CREATE_NEW tiny_geometry
  obtain ⟨d₁, hopen⟩ : ∃ d₁, fOpen (some tinyVol) [0x2F, 0x58] FA_CREATE_NEW packedDisk =
      .err .mkfsAborted d₁ := by decide +kernel
  obtain ⟨d₂, hmkdir⟩ : ∃ d₂, fMkdir (some tinyVol) [0x2F, 0x58] packedDisk =
      .err .mkfsAborted d₂ := by decide +kernel
  refine ⟨⟨d₁, hopen, ?_⟩, ⟨d₂, hmkdir, ?_⟩, ?_⟩
  · exact hpacked.1.mpr (fun _ _ _ new _ hfirst => absurd hfirst (hnone new)) _ _ hopen
  · exact hpacked.2.mpr (fun _ _ new _ _ _ hfirst => absurd hfirst (hnone new)) _ _ hmkdir
  · refine (failed_create_iff tinyVol secondDisk [0x2F, 0x58] FA_CREATE_NEW tiny_geometry).1.mpr ?_
    rintro - c name new ⟨hpath, -⟩ hfirst hfull
    have hresolve : resolvePath tinyVol [0x2F, 0x58] secondDisk = .ok (2, [0x58]) secondDisk := rfl
    have heq := hresolve.symm.trans hpath
    cases heq
    exact (fullDir_marked_iff tiny_geometry (tiny_mirrored _).shows
      (second_wellFormed.treeOk tiny_geometry) .root hfirst).1.mp hfull _ second_firstVacant

/-- A root directory with sixteen empty files, one in every slot of its cluster. -/
def filledDisk : Disk := fun lba =>
  if lba = 1 then sectorOf (bytes32 0x0FFFFFF8 ++ (replicate 2 (bytes32 0x0FFFFFFF)).flatten)
  else if lba = 2 then Sector.ofBuf fun i =>
    if i % 32 = 0 then 0x41 + UInt8.ofNat (i / 32) else if i % 32 < 12 then 0x20 else 0
  else sectorOf []

theorem filled_wellFormed : WellFormed tinyVol (view tinyVol filledDisk) :=
  wellFormed_of_lists [2] ((none, [2]) :: (range 16).map fun i => (some (2, i), []))
    tiny_geometry (by decide +kernel)

/-- The root directory is full: both calls fail, and cluster 3 stays allocated. -/
theorem full_directory_leaks : Geometry tinyVol ∧ Mirrored tinyVol filledDisk ∧
    WellFormed tinyVol (view tinyVol filledDisk) ∧ rawEntry tinyVol filledDisk 0 3 = 0 ∧
    (∃ e d', fOpen (some tinyVol) [0x2F, 0x58] FA_CREATE_NEW filledDisk = .err e d' ∧
      rawEntry tinyVol d' 0 3 = 0x0FFFFFFF) ∧
    ∃ e d', fMkdir (some tinyVol) [0x2F, 0x58] filledDisk = .err e d' ∧
      rawEntry tinyVol d' 0 3 = 0x0FFFFFFF := by
  exact ⟨tiny_geometry, tiny_mirrored _, filled_wellFormed, by decide +kernel⟩

end PlanckOS.Fat32
