import PlanckOS.Fat32.Resolve

/-!
# `f_chmod` and `f_utime`

Both calls look a path up and rewrite some bytes of the slot found. When the lookups are in step
with the names of the path (`LooksUp`), that slot is the one of the entry that the path names, and
no byte of the device changes but those written. A change of the attributes or of the times does not
disturb the lookups (`LooksAlike`), so `f_stat` of the same path then reads what was written.

What `f_chmod` writes is not the attribute byte it is given: the mask for the long-name attribute
takes the bits for read-only, hidden and system files off as well. So the attributes read back are
those given exactly when none of these bits is set (`metadata_reads_back_iff`).
-/

set_option autoImplicit false

namespace PlanckOS.Fat32

open Lib.Fallible FatVolume List

variable {vol : FatVolume} {d d' : Disk} {p : Slot} {path bytes : Bytes} {k : Nat}

/-! ## The entry of a path -/

/-- The path names the entry in slot `p`, `.` and `..` included. -/
def PathNames (vol : FatVolume) (img : Image) (path : Bytes) (p : Slot) : Prop :=
  ∃ c, Descends vol img vol.rootCluster (pathParents path) c ∧ pathLast path ≠ [] ∧
    Denotes vol img c (pathLast path) p

/-- The lookups of the path are in step, and the last one finds slot `p`. -/
def LooksUp (vol : FatVolume) (img : Image) (path : Bytes) (p : Slot) : Prop :=
  InStep vol img vol.rootCluster (pathParents path) ∧
    ∃ c l, Descends vol img vol.rootCluster (pathParents path) c ∧ img.Chain vol c l ∧
      scanDir img (pathLast path) (vol.dirSlots l) = some (some p)

/-- A lookup cannot tell the entries apart: the names, whether they are hidden and the start
clusters are the same. -/
structure EntriesAlike (e e' : Entry) : Prop where
  name : ∀ k < 11, e' k = e k
  hidden : Hidden e' ↔ Hidden e
  start : startOf e' = startOf e

/-- A lookup cannot tell the images apart. -/
structure LooksAlike (vol : FatVolume) (img img' : Image) : Prop where
  next : ∀ x, vol.Valid x → img'.next x = img.next x
  slot : ∀ q : Slot, vol.Valid q.1 → q.2 < vol.slotsPerCluster →
    EntriesAlike (img.slot q) (img'.slot q)

section Lookups

variable {img img' : Image} {c c' : Nat} {l : List Nat}
  {name : Bytes} {names : List Bytes} {slots : List Slot}

theorem EntriesAlike.refl (e : Entry) : EntriesAlike e e := ⟨fun _ _ => rfl, Iff.rfl, rfl⟩

theorem EntriesAlike.checkSlot_eq {e e' : Entry} (h : EntriesAlike e e') (target : Bytes) :
    checkSlot e' target = checkSlot e target := by
  have hname : readDirEntryName e' = readDirEntryName e := by
    rw [readDirEntryName, readDirEntryName, decodedName_congr h.name]
  have hhidden : (attrOf e' = ATTR_LFN ∨ attrOf e' &&& ATTR_VOLUME ≠ 0) ↔
      (attrOf e = ATTR_LFN ∨ attrOf e &&& ATTR_VOLUME ≠ 0) := h.hidden
  rw [checkSlot, checkSlot, h.name 0 (by decide), hname]
  simp only [hhidden]

theorem LooksAlike.chain (h : LooksAlike vol img img') (hl : img.Chain vol c l) :
    img'.Chain vol c l :=
  hl.congr fun x hx => h.next x (hl.valid_of_mem hx)

theorem LooksAlike.scanDir_eq (h : LooksAlike vol img img') (hl : img.Chain vol c l)
    (target : Bytes) :
    scanDir img' target (vol.dirSlots l) = scanDir img target (vol.dirSlots l) := by
  refine scanDir_congr fun q hq => ?_
  obtain ⟨hql, hi⟩ := mem_dirSlots.mp hq
  exact (h.slot q (hl.valid_of_mem hql) hi).checkSlot_eq target

section

variable (hg : Geometry vol) (hv : view vol d' = img') (halike : LooksAlike vol img img')
include hg hv halike

/-- A walk in step that leads somewhere leads there on an image that looks alike. -/
theorem InStep.resolveFrom_alike (h : InStep vol img c names) (hreach : Descends vol img c names c')
    (last : Bytes) :
    resolveFrom vol c (names ++ [last]) d' = .ok (c', last) d' := by
  induction h with
  | done c =>
    cases hreach
    rfl
  | skip h ih =>
    rw [cons_append, resolveFrom_nil_cons (by simp)]
    cases hreach with
    | skip hreach => exact ih hreach
    | step hne => exact absurd rfl hne
  | missing hne hl hscan =>
    obtain ⟨q, hq, -⟩ := (descends_cons_iff hne hg hl).mp hreach
    rw [namedSlot_of_scan_none hne hscan] at hq
    cases hq
  | @step c l p q name rest hne hl hscan hq hd hlead h ih =>
    obtain ⟨q', hq', -, hreach⟩ := (descends_cons_iff hne hg hl).mp hreach
    obtain rfl := Option.some.inj (hq.symm.trans hq')
    obtain ⟨pre, post, hslots, -⟩ := scanDir_found hscan
    have hmem := mem_iff_append.mpr ⟨_, _, hslots⟩
    obtain ⟨hpl, hi⟩ := mem_dirSlots.mp hmem
    have hstart := (halike.slot p (hl.valid_of_mem hpl) hi).start
    have hscan' := (halike.scanDir_eq hl name).trans hscan
    rw [cons_append, resolveFrom_scan hg hv hne (by simp) (halike.chain hl) hscan', hstart]
    exact ih (hlead ▸ hreach)

/-- The calls on a path work on the slot that is looked up, also on an image that looks alike. -/
theorem LooksUp.actOnSlot (h : LooksUp vol img path p) (hne : pathLast path ≠ []) :
    ActOnSlot vol d' path p := by
  obtain ⟨hstep, c, l, hreach, hl, hscan⟩ := h
  have hpath : resolvePath vol path d' = .ok (c, pathLast path) d' := by
    rw [resolvePath_eq]
    exact hstep.resolveFrom_alike hg hv halike hreach _
  have hfind := findEntryInDir_eq hg hv (halike.chain hl) (pathLast path)
  rw [halike.scanDir_eq hl, hscan] at hfind
  exact actOnSlot_of_found hne hpath hfind

end

/-- The slot that is looked up is a live one of the volume. -/
theorem LooksUp.live (h : LooksUp vol img path p) :
    vol.Valid p.1 ∧ p.2 < vol.slotsPerCluster ∧ LiveEntry (img.slot p) := by
  obtain ⟨-, c, l, -, hl, hscan⟩ := h
  obtain ⟨pre, post, hslots, -, hhit⟩ := scanDir_found hscan
  have hmem := mem_iff_append.mpr ⟨_, _, hslots⟩
  obtain ⟨hpl, hi⟩ := mem_dirSlots.mp hmem
  exact ⟨hl.valid_of_mem hpl, hi, live_of_hit hhit⟩

end Lookups

/-! ## Bytes of a slot -/

section Bytes

variable {q : Slot}

variable (hg : Geometry vol)
include hg

/-- A slot of the volume, byte by byte. -/
theorem view_slot (hq : vol.Valid q.1) (hi : q.2 < vol.slotsPerCluster) {j : Nat} (hj : j < 32) :
    (view vol d).slot q j = byteOn d (vol.slotByte q j) := by
  rw [byteOn_slotByte hi hj, clusterOn_eq hg rfl hq]
  rfl

/-- Bytes stored in a slot of a cluster do not reach the table. -/
theorem view_setSlotOn_next (hp : vol.Valid p.1) (hi : p.2 < vol.slotsPerCluster) (x : Nat) :
    (view vol (vol.setSlotOn d p k bytes)).next x = (view vol d).next x := by
  have hend := slot_end hi
  rw [clusterSize_eq] at hend
  have hmax := hg.maxCluster_eq
  have hdata := hg.data_eq
  have hrow : vol.sectorsPerFat ≤ vol.numFats * vol.sectorsPerFat :=
    Nat.le_mul_of_pos_left _ hg.fats_pos
  have hsector : (vol.slotByte p k).1 =
      vol.dataRegionLba + (p.1 - 2) * vol.sectorsPerCluster + p.2 / 16 :=
    hg.sector_eq hp (by omega)
  rw [Image.next, Image.next]
  simp only [view]
  split
  next hx =>
    rw [rawEntry, rawEntry, setSlotOn, if_neg]
    rw [hsector]
    omega
  next => rfl

/-- The slot with the bytes stored, and the other slots. -/
theorem view_setSlotOn_slot (hlen : k + bytes.length ≤ 32) (hq : vol.Valid q.1)
    (hi : q.2 < vol.slotsPerCluster) : (view vol (vol.setSlotOn d p k bytes)).slot q =
      if vol.slotByte q 0 = vol.slotByte p 0 then ((view vol d).slot q).store k bytes
      else (view vol d).slot q := by
  funext j
  by_cases hj : j < 32
  · rw [view_slot hg hq hi hj]
    split
    next hplace =>
      rw [slotByte_congr hplace j, Buf.store]
      split
      next hin =>
        have hbyte : byteOn (vol.setSlotOn d p k bytes) (vol.slotByte p (k + (j - k))) =
            bytes.getD (j - k) 0 := byteOn_setSlotOn (by omega) hlen
        rwa [Nat.add_sub_cancel' hin.1] at hbyte
      next hout =>
        rw [view_slot hg hq hi hj, slotByte_congr hplace j]
        refine setSlotOn_frame vol d p k bytes _ (slotByte_lt hj) ?_
        rintro ⟨i, hlt, heq⟩
        have := (slotByte_inj hj (by omega) heq).2
        omega
    next hplace =>
      rw [view_slot hg hq hi hj]
      refine setSlotOn_frame vol d p k bytes _ (slotByte_lt hj) ?_
      rintro ⟨i, hlt, heq⟩
      exact hplace (slotByte_inj hj (by omega) heq).1
  · -- nothing behind the 32 bytes
    have hzero : ∀ img : Image, img.slot q j = 0 := fun img => if_neg hj
    rw [hzero]
    split
    · rw [Buf.store, if_neg (by omega), hzero]
    · rw [hzero]

/-- A change of the slot that a lookup does not see. -/
theorem looksAlike_setSlotOn (hp : vol.Valid p.1) (hi : p.2 < vol.slotsPerCluster)
    (hlen : k + bytes.length ≤ 32)
    (h : EntriesAlike ((view vol d).slot p) (((view vol d).slot p).store k bytes)) :
    LooksAlike vol (view vol d) (view vol (vol.setSlotOn d p k bytes)) where
  next x _ := view_setSlotOn_next hg hp hi x
  slot q hq hiq := by
    rw [view_setSlotOn_slot hg hlen hq hiq]
    split
    next hplace =>
      -- another number for the same place shows the same bytes
      have hsame : (view vol d).slot q = (view vol d).slot p := by
        funext j
        by_cases hj : j < 32
        · rw [view_slot hg hq hiq hj, view_slot hg hp hi hj, slotByte_congr hplace j]
        · exact (if_neg hj).trans (if_neg hj).symm
      rwa [hsame]
    next => exact .refl _

end Bytes

/-! ## The two calls -/

/-- `updateSlot` with some bytes stored in the slot. -/
theorem updateSlot_run {change : Buf → Nat → Buf} (hg : Geometry vol)
    (hi : p.2 < vol.slotsPerCluster) (hlen : k + bytes.length ≤ 32)
    (hchange : ∀ buf off, change buf off = buf.store (off + k) bytes) :
    updateSlot vol change p.1 p.2 d = .ok () (vol.setSlotOn d p k bytes) := by
  rw [updateSlot, Op.bind_ok readCluster_run, hchange]
  exact writeCluster_slot (hg.spc_le.trans (by norm_num)) hi hlen

/-- What `f_chmod` stores. -/
def maskedAttrs (a : Nat) : Nat := a &&& (0xFF - ATTR_LFN)

theorem maskedAttrs_visible : ∀ a < 256, maskedAttrs a ≠ ATTR_LFN ∧
    maskedAttrs a &&& ATTR_VOLUME = 0 ∧ maskedAttrs a < 256 := by decide +kernel

/-- The mask takes the bits for read-only, hidden and system off. -/
theorem maskedAttrs_eq_iff : ∀ a < 256, a &&& ATTR_VOLUME = 0 → (maskedAttrs a = a ↔
    a &&& (ATTR_READ_ONLY ||| ATTR_HIDDEN ||| ATTR_SYSTEM) = 0) := by decide +kernel

/-- An entry that stays visible with other attributes. -/
theorem entriesAlike_attrs {e : Entry} (hlive : ¬ Hidden e) {a : Nat} (ha : a < 256) :
    EntriesAlike e (e.store 0x0B [UInt8.ofNat (maskedAttrs a)]) := by
  obtain ⟨hlfn, hvolume, hlt⟩ := maskedAttrs_visible a ha
  have hattr : attrOf (e.store 0x0B [UInt8.ofNat (maskedAttrs a)]) = maskedAttrs a := by
    show (UInt8.ofNat (maskedAttrs a)).toNat = _
    rw [UInt8.toNat_ofNat_of_lt' hlt]
  refine ⟨fun k hk => if_neg (by omega), iff_of_false ?_ hlive, rfl⟩
  rw [Hidden, hattr]
  exact not_or.mpr ⟨hlfn, not_not.mpr hvolume⟩

/-- An entry with other times. -/
theorem entriesAlike_times (e : Entry) (time date : Nat) :
    EntriesAlike e (e.store 0x16 (bytes16 time ++ bytes16 date)) where
  name k hk := if_neg (by omega)
  hidden := Iff.rfl
  start := rfl

section

variable (hg : Geometry vol) (h : LooksUp vol (view vol d) path p) (hne : pathLast path ≠ [])
include hg h hne

/-- `f_chmod` and `f_utime` on the slot looked up. -/
theorem LooksUp.chmod_run (a : Nat) : fChmod (some vol) path a d =
      .ok () (vol.setSlotOn d p 0x0B [UInt8.ofNat (maskedAttrs a)]) := by
  have hact : ActOnSlot vol d path p :=
    h.actOnSlot hg rfl ⟨fun _ _ => rfl, fun _ _ _ => .refl _⟩ hne
  rw [hact.2.2.2.1 a]
  exact updateSlot_run hg h.live.2.1 (Nat.le_of_ble_eq_true rfl) fun buf off =>
    (store_singleton buf _ _).symm

theorem LooksUp.utime_run (time date : Nat) : fUtime (some vol) path time date d =
      .ok () (vol.setSlotOn d p 0x16 (bytes16 time ++ bytes16 date)) := by
  have hact : ActOnSlot vol d path p :=
    h.actOnSlot hg rfl ⟨fun _ _ => rfl, fun _ _ _ => .refl _⟩ hne
  rw [hact.2.2.2.2.1 time date]
  exact updateSlot_run hg h.live.2.1 (Nat.le_of_ble_eq_true rfl) fun buf off =>
    (store_append buf (off + 0x16) (bytes16 time) (bytes16 date)).symm

/-- What `f_stat` reports of the slot looked up, behind a change that the lookups do not see. -/
theorem LooksUp.stat_run (hlen : k + bytes.length ≤ 32)
    (halike : EntriesAlike ((view vol d).slot p) (((view vol d).slot p).store k bytes)) :
    ∃ info, fStat (some vol) path (vol.setSlotOn d p k bytes) =
        .ok info (vol.setSlotOn d p k bytes) ∧
      info.attributes = attrOf (((view vol d).slot p).store k bytes) ∧
      info.writeTime = (((view vol d).slot p).store k bytes).le16 0x16 ∧
      info.writeDate = (((view vol d).slot p).store k bytes).le16 0x18 := by
  obtain ⟨hvalid, hi, -⟩ := h.live
  have hact := h.actOnSlot hg rfl (looksAlike_setSlotOn hg hvalid hi hlen halike) hne
  have hslot := view_setSlotOn_slot (d := d) (p := p) hg hlen hvalid hi
  rw [if_pos rfl] at hslot
  refine ⟨_, hact.1.trans (Op.bind_ok (readEntryData_shows hg rfl hvalid p.2)), ?_⟩
  rw [← hslot]
  exact ⟨rfl, rfl, rfl⟩

end

/-- `f_chmod` on any device: it rewrites one byte of the slot it finds. -/
theorem fChmod_sat (hg : Geometry vol) (path : Bytes) (a : Nat) : (fChmod (some vol) path a d).Sat
      (fun _ d' => ∃ q, FindsSource vol d path q ∧ q.2 < vol.slotsPerCluster ∧
        d' = vol.setSlotOn d q 0x0B [UInt8.ofNat (maskedAttrs a)]) fun _ _ => True := by
  rw [fChmod, withVol]
  refine (resolvePath_readOnly vol path).sat_bind ?_ fun _ => trivial
  rintro ⟨c, name⟩ hpath
  refine (findEntryInDir_readOnly vol c name).sat_bind ?_ fun _ => trivial
  intro r hfind
  cases r with
  | none => trivial
  | some q =>
    have hi := (findEntryInDir_hit hfind).1
    refine sat_of_ok (updateSlot_run hg hi (Nat.le_of_ble_eq_true rfl) fun buf off =>
      (store_singleton buf _ _).symm) ?_
    exact ⟨q, ⟨c, name, hpath, hfind⟩, hi, rfl⟩

/-- **When metadata updates read back.** The path names the entry in slot `p`. If the lookups are in
step and find this slot, then `f_chmod` changes its attribute byte only, and `f_stat` reads the
attributes given exactly when they have none of the bits for read-only, hidden and system; `f_utime`
changes the four bytes of the times only, and `f_stat` reads them. In any case, a call of `f_chmod`
that changes nothing but the attribute byte of the entry has found the place of the entry, or a slot
that had these attributes already. -/
theorem metadata_reads_back_iff (vol : FatVolume) (d : Disk) (path : Bytes) (p : Slot)
    (hg : Geometry vol) (hp : PathNames vol (view vol d) path p) :
    (LooksUp vol (view vol d) path p →
      (∀ a d', a < 256 → a &&& ATTR_VOLUME = 0 → fChmod (some vol) path a d = .ok () d' →
        Frame d d' (fun b => b = vol.slotByte p 0x0B) ∧
        ((∃ info, fStat (some vol) path d' = .ok info d' ∧ info.attributes = a) ↔
          a &&& (ATTR_READ_ONLY ||| ATTR_HIDDEN ||| ATTR_SYSTEM) = 0)) ∧
      ∀ time date d', time < 2 ^ 16 → date < 2 ^ 16 →
        fUtime (some vol) path time date d = .ok () d' →
        Frame d d' (fun b => ∃ j < 4, b = vol.slotByte p (0x16 + j)) ∧
        ∃ info, fStat (some vol) path d' = .ok info d' ∧ info.writeTime = time ∧
          info.writeDate = date) ∧
    ∀ a d', a < 256 → fChmod (some vol) path a d = .ok () d' →
      Frame d d' (fun b => b = vol.slotByte p 0x0B) →
      ∃ q, FindsSource vol d path q ∧ (vol.slotByte q 0 = vol.slotByte p 0 ∨
        attrOf (entryAt (vol.clusterOn d q.1) q.2) = maskedAttrs a) := by
  obtain ⟨-, -, hne, -⟩ := hp
  refine ⟨fun hlook => ⟨?_, ?_⟩, ?_⟩
  · intro a d' ha hvolume hcall
    obtain ⟨-, rfl⟩ := Outcome.ok.inj ((hlook.chmod_run hg hne a).symm.trans hcall)
    constructor
    · refine fun b hb hout => setSlotOn_frame vol d p 0x0B _ b hb ?_
      rintro ⟨j, hj, rfl⟩
      obtain rfl : j = 0 := by simpa using hj
      exact hout rfl
    · have hlt := (maskedAttrs_visible a ha).2.2
      obtain ⟨info, hstat, hattr, -⟩ := hlook.stat_run hg hne (Nat.le_of_ble_eq_true rfl)
        (entriesAlike_attrs hlook.live.2.2.1 ha)
      have hread : info.attributes = maskedAttrs a :=
        hattr.trans (UInt8.toNat_ofNat_of_lt' hlt)
      rw [← maskedAttrs_eq_iff a ha hvolume]
      constructor
      · rintro ⟨info', hstat', hattr'⟩
        obtain ⟨rfl, -⟩ := Outcome.ok.inj (hstat.symm.trans hstat')
        exact hread.symm.trans hattr'
      · exact fun heq => ⟨info, hstat, hread.trans heq⟩
  · intro time date d' htime hdate hcall
    obtain ⟨-, rfl⟩ := Outcome.ok.inj ((hlook.utime_run hg hne time date).symm.trans hcall)
    refine ⟨setSlotOn_frame vol d p 0x16 _, ?_⟩
    obtain ⟨info, hstat, -, hreadTime, hreadDate⟩ := hlook.stat_run hg hne
      (Nat.le_of_ble_eq_true rfl) (entriesAlike_times ((view vol d).slot p) time date)
    rw [store_append] at hreadTime hreadDate
    refine ⟨info, hstat, hreadTime.trans ?_, hreadDate.trans ?_⟩
    · rw [le16_congr fun i hi => if_neg (by show ¬ (0x18 ≤ 0x16 + i ∧ _); omega), le16_store_self]
      exact Nat.mod_eq_of_lt htime
    · exact (le16_store_self _ _ _).trans (Nat.mod_eq_of_lt hdate)
  · intro a d' ha hcall hframe
    obtain ⟨q, hq, hi, rfl⟩ := (fChmod_sat hg path a).of_ok hcall
    refine ⟨q, hq, ?_⟩
    by_cases hplace : vol.slotByte q 0 = vol.slotByte p 0
    · exact .inl hplace
    · -- the byte written was there before
      have hother : vol.slotByte q 0x0B ≠ vol.slotByte p 0x0B :=
        fun h => hplace (slotByte_inj (by decide) (by decide) h).1
      have hsame := hframe (vol.slotByte q 0x0B) (slotByte_lt (by decide)) hother
      have hnew : byteOn (vol.setSlotOn d q 0x0B [UInt8.ofNat (maskedAttrs a)])
          (vol.slotByte q (0x0B + 0)) = [UInt8.ofNat (maskedAttrs a)].getD 0 0 :=
        byteOn_setSlotOn Nat.zero_lt_one (Nat.le_of_ble_eq_true rfl)
      refine .inr ?_
      rw [attrOf, ← byteOn_slotByte hi (by decide), ← hsame]
      exact (congrArg UInt8.toNat hnew).trans
        (UInt8.toNat_ofNat_of_lt' (maskedAttrs_visible a ha).2.2)

/-! ## On the sample volume -/

/-- The entry `G` in the directory `D`. -/
theorem second_names_G : PathNames tinyVol secondImage [0x2F, 0x44, 0x2F, 0x47] (4, 2) ∧
    LooksUp tinyVol secondImage [0x2F, 0x44, 0x2F, 0x47] (4, 2) := by
  have hparents : pathParents [0x2F, 0x44, 0x2F, 0x47] = [[0x44]] := by decide
  have hreach : Descends tinyVol secondImage 2 (pathParents [0x2F, 0x44, 0x2F, 0x47]) 4 :=
    hparents ▸ second_descends (.done _)
  exact ⟨⟨4, hreach, by decide, [4], second_chain (by decide), by decide +kernel⟩,
    hparents ▸ second_inStep, 4, [4], hreach, second_chain (by decide), by decide +kernel⟩

/-- The archive bit of `/D/G` reads back. -/
theorem metadata_reads_back_iff_G : ∃ d' info,
    fChmod (some tinyVol) [0x2F, 0x44, 0x2F, 0x47] ATTR_ARCHIVE secondDisk = .ok () d' ∧
      fStat (some tinyVol) [0x2F, 0x44, 0x2F, 0x47] d' = .ok info d' ∧
      info.attributes = ATTR_ARCHIVE := by
  obtain ⟨hnames, hlook⟩ := second_names_G
  have hrun := hlook.chmod_run tiny_geometry (by decide) ATTR_ARCHIVE
  have hback := ((metadata_reads_back_iff tinyVol secondDisk [0x2F, 0x44, 0x2F, 0x47] (4, 2)
    tiny_geometry hnames).1 hlook).1 ATTR_ARCHIVE _ (by decide) (by decide) hrun
  obtain ⟨info, hstat, hattr⟩ := hback.2.mpr (by decide)
  exact ⟨_, info, hrun, hstat, hattr⟩

/-- A file that is made read-only is not read-only: `f_chmod` of `/D/G` with the bits for read-only
and archive leaves the archive bit alone. -/
theorem read_only_dropped : WellFormed tinyVol secondImage ∧
    PathNames tinyVol secondImage [0x2F, 0x44, 0x2F, 0x47] (4, 2) ∧ ∃ d' info,
      fChmod (some tinyVol) [0x2F, 0x44, 0x2F, 0x47] (ATTR_READ_ONLY ||| ATTR_ARCHIVE) secondDisk =
        .ok () d' ∧
      fStat (some tinyVol) [0x2F, 0x44, 0x2F, 0x47] d' = .ok info d' ∧
      info.attributes = ATTR_ARCHIVE := by
  obtain ⟨hnames, hlook⟩ := second_names_G
  have hwidth :
      0x0B + [UInt8.ofNat (maskedAttrs (ATTR_READ_ONLY ||| ATTR_ARCHIVE))].length ≤ 32 := by
    decide
  obtain ⟨info, hstat, hattr, -⟩ := hlook.stat_run tiny_geometry
    (by decide) hwidth (entriesAlike_attrs hlook.live.2.2.1 (by decide))
  exact ⟨second_wellFormed, hnames, _, info,
    hlook.chmod_run tiny_geometry (by decide) (ATTR_READ_ONLY ||| ATTR_ARCHIVE), hstat, hattr⟩

end PlanckOS.Fat32
