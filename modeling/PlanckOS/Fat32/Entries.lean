import PlanckOS.Fat32.Recycle

/-!
# What a directory slot holds

Two kinds of operations write the slot of a file. `f_sync` stores size and start cluster. It
computes the place of the slot from the index in the cluster, but it reads and writes the first
sector of the cluster only, so it works exactly for the sixteen slots in that sector
(`sync_writes_slot_iff`). `SlotSynced` is what it should do: the two fields are written and no other
byte of the device changes.

`f_open` and `f_mkdir` write a new entry over whatever the slot held before. They store the name,
the attributes and the start cluster, but not the size (`sizeOf_newEntry`, `sizeOf_newDirEntry`).
The path leads to the new slot (`Grown.stat`), so `f_stat` shows the size of the entry that was
deleted there: `new_entry_empty_iff` says that a new entry is empty exactly when the slot was clean.
-/

set_option autoImplicit false

namespace PlanckOS.Fat32

open Lib.Fallible FatVolume List
open Lib.Transition

variable {vol : FatVolume} {name path : Bytes} {img img' : Image} {p : Slot} {c new x : Nat}

/-! ## `f_sync` -/

/-- Byte `o` of the sector belongs to the start cluster or the size in the slot of the handle. -/
def SyncedByte (vol : FatVolume) (f : File) (lba o : Nat) : Prop :=
  lba = (vol.clusterToLba f.dirSector + f.dirOffset / 16) % 2 ^ 32 ∧
    ∃ k, (0x14 ≤ k ∧ k < 0x16 ∨ 0x1A ≤ k ∧ k < 0x20) ∧ o = f.dirOffset % 16 * DIR_SIZE + k

/-- The slot has the size and the start cluster of the handle, and nothing else was written. -/
structure SlotSynced (vol : FatVolume) (s : OpenFile Disk) (d : Disk) : Prop where
  entry : ∃ e, vol.readEntryData s.file.dirSector s.file.dirOffset d = .ok e d ∧
    FatVolume.sizeOf e = s.file.size ∧ startOf e = s.file.startCluster
  frame : ∀ lba o, o < 512 → ¬ SyncedByte vol s.file lba o → (d lba).buf o = (s.dev lba).buf o

section Sync

variable {s : OpenFile Disk}

/-- The first sector of the slot's cluster with the two fields written. -/
def syncedSector (vol : FatVolume) (s : OpenFile Disk) : Buf :=
  storeStart ((s.dev (vol.clusterToLba s.file.dirSector)).buf.store
    (s.file.dirOffset * DIR_SIZE + 0x1C) (bytes32 s.file.size))
    (s.file.dirOffset * DIR_SIZE) s.file.startCluster

/-- The device with this sector. -/
def syncedDevice (vol : FatVolume) (s : OpenFile Disk) : Disk := fun lba =>
  if lba = vol.clusterToLba s.file.dirSector then Sector.ofBuf (syncedSector vol s) else s.dev lba

/-- `f_sync` of a modified handle, in the first sector. -/
theorem fSync_run (hmod : s.file.modified = true) (hin : s.file.dirOffset < 16) :
    fSync (some vol) s =
      .ok () ⟨syncedDevice vol s, { s.file with modified := false }⟩ := by
  have hoff : ¬ SECTOR_SIZE < s.file.dirOffset * DIR_SIZE + DIR_SIZE := by
    rw [SECTOR_SIZE, DIR_SIZE]
    omega
  rw [fSync, Op.bind_ok (getFile_run s), if_pos hmod, Op.bind_ok (onVol_pure _ _),
    Op.bind_ok (onVol_ok (readSector_disk _ _)), if_neg hoff,
    Op.bind_ok (onVol_ok (writeSector_disk _ _ _)), updateFile_run]
  rfl

/-- Behind the first sector the index is out of bounds. -/
theorem fSync_panics (hmod : s.file.modified = true) (hout : 16 ≤ s.file.dirOffset) :
    fSync (some vol) s = .fault .panic := by
  have hoff : SECTOR_SIZE < s.file.dirOffset * DIR_SIZE + DIR_SIZE := by
    rw [SECTOR_SIZE, DIR_SIZE]
    omega
  rw [fSync, Op.bind_ok (getFile_run s), if_pos hmod, Op.bind_ok (onVol_pure _ _),
    Op.bind_ok (onVol_ok (readSector_disk _ _)), if_pos hoff]
  rfl

/-- The size stored is the one read back. -/
theorem sizeOf_syncedEntry (e : Entry) {f : File} (hsize : f.size < 2 ^ 32) :
    FatVolume.sizeOf (syncedEntry e f) = f.size := by
  have hapart : (syncedEntry e f).le32 0x1C = (e.store 0x1C (bytes32 f.size)).le32 0x1C := by
    apply le32_congr
    intro i hi
    rw [syncedEntry, storeStart_apply (by omega)]
  rw [FatVolume.sizeOf, hapart, le32_store_self, Nat.mod_eq_of_lt hsize]

/-- The fields in the sector are those of the slot. -/
theorem syncedSector_of_not_field {o : Nat}
    (h : ¬ ∃ k, (0x14 ≤ k ∧ k < 0x16 ∨ 0x1A ≤ k ∧ k < 0x20) ∧ o = s.file.dirOffset * DIR_SIZE + k) :
    syncedSector vol s o = (s.dev (vol.clusterToLba s.file.dirSector)).buf o := by
  have hlen : (bytes32 s.file.size).length = 4 := rfl
  have hout : ∀ a n, 0x14 ≤ a ∧ a + n ≤ 0x16 ∨ 0x1A ≤ a ∧ a + n ≤ 0x20 →
      ¬ (s.file.dirOffset * DIR_SIZE + a ≤ o ∧ o < s.file.dirOffset * DIR_SIZE + a + n) := by
    rintro a n ha ⟨h1, h2⟩
    exact h ⟨o - s.file.dirOffset * DIR_SIZE, by omega, by omega⟩
  rw [syncedSector, storeStart, Buf.store, bytes16_length, if_neg (hout _ _ (by omega)), Buf.store,
    bytes16_length, if_neg (hout _ _ (by omega)), Buf.store, if_neg (hout _ _ (by omega))]

/-- **`f_sync` in the first sector** writes its slot and nothing else. -/
theorem slotSynced_of_lt (hspc : 0 < vol.sectorsPerCluster) (hin : s.file.dirOffset < 16)
    (hsize : s.file.size < 2 ^ 32) (hstart : s.file.startCluster < 2 ^ 32) :
    SlotSynced vol s (syncedDevice vol s) := by
  have hfirst : syncedDevice vol s (vol.clusterToLba s.file.dirSector) =
      Sector.ofBuf (syncedSector vol s) := if_pos rfl
  have hlba : vol.clusterToLba s.file.dirSector < 2 ^ 32 := Nat.mod_lt _ (by norm_num)
  constructor
  · -- reading the cluster gives the edited sector first
    refine ⟨syncedEntry (entryAt (s.dev (vol.clusterToLba s.file.dirSector)).buf s.file.dirOffset)
      s.file, ?_, sizeOf_syncedEntry _ hsize, startOf_storeStart _ hstart⟩
    rw [readEntryData, readCluster, Op.bind_ok (readSectors_disk _ _), Op.pure_run,
      ← (slotEdit_synced s.file).entry]
    congr 1
    funext k
    rw [entryAt, entryAt]
    by_cases hk : k < DIR_SIZE
    · have hk' : s.file.dirOffset * DIR_SIZE + k < 512 := by
        rw [DIR_SIZE] at hk ⊢
        omega
      have hrow : (s.file.dirOffset * DIR_SIZE + k) / 512 = 0 := Nat.div_eq_of_lt hk'
      rw [if_pos hk, if_pos hk, hrow, if_pos hspc, Nat.add_zero, Nat.mod_eq_of_lt hlba,
        hfirst, Nat.mod_eq_of_lt hk', Sector.buf_ofBuf _ hk']
      rfl
    · rw [if_neg hk, if_neg hk]
  · intro lba o ho hbyte
    by_cases hsame : lba = vol.clusterToLba s.file.dirSector
    · subst hsame
      rw [hfirst, Sector.buf_ofBuf _ ho]
      apply syncedSector_of_not_field
      rintro ⟨k, hk, rfl⟩
      refine hbyte ⟨?_, k, hk, ?_⟩
      · rw [Nat.div_eq_of_lt hin, Nat.add_zero, Nat.mod_eq_of_lt hlba]
      · rw [Nat.mod_eq_of_lt hin]
    · exact congrArg (fun t : Sector => t.buf o) (if_neg hsame)

/-- **`f_sync` writes back exactly its own slot, for the slots of the first sector.** For every
volume that `f_mount` returns, every slot of a cluster and every modified handle on it. -/
theorem sync_writes_slot_iff (vol : FatVolume) (d₀ d₁ : Disk) (s : OpenFile Disk)
    (hmount : fMount d₀ = .ok vol d₁)
    (_hslot : s.file.dirOffset < vol.slotsPerCluster) (hmod : s.file.modified = true)
    (hsize : s.file.size < 2 ^ 32) (hstart : s.file.startCluster < 2 ^ 32) :
    (∃ s', fSync (some vol) s = .ok () s' ∧ SlotSynced vol s s'.dev) ↔ s.file.dirOffset < 16 := by
  constructor
  · rintro ⟨s', hrun, -⟩
    by_contra hout
    rw [fSync_panics hmod (Nat.not_lt.mp hout)] at hrun
    cases hrun
  · intro hin
    exact ⟨_, fSync_run hmod hin, slotSynced_of_lt (fMount_shape hmount).1 hin hsize hstart⟩

end Sync

/-! ### A volume with two sectors in a cluster -/

/-- The boot sector of a volume with one table of one sector in front of the data. -/
def bootSector (spc : Nat) : Sector := Sector.ofBuf fun i =>
  if i = 0x0C then 0x02 else if i = 0x0D then UInt8.ofNat spc
  else if i = 0x0E ∨ i = 0x10 ∨ i = 0x24 then 1 else if i = 0x2C then 2
  else if i = 0x1FE then 0x55 else if i = 0x1FF then 0xAA else 0

/-- What `f_mount` makes of it when a cluster has two sectors. -/
def wideVol : FatVolume := { tinyVol with sectorsPerCluster := 2 }

/-- A root directory whose first sector has deleted entries only; the file `F` is in slot 16. -/
def wideDisk : Disk := fun lba =>
  if lba = 0 then bootSector 2
  else if lba = 1 then sectorOf ((0x0FFFFFF8 :: replicate 3 0x0FFFFFFF).flatMap bytes32)
  else if lba = 2 then Sector.ofBuf fun i => if i % 32 = 0 then 0xE5 else 0
  else if lba = 3 then sectorOf (fileSlot [0x46] 3 1)
  else sectorOf []

theorem wide_mount : ∃ d, fMount wideDisk = .ok wideVol d := by
  decide +kernel

/-- A handle on a slot in the first sector. -/
theorem sync_writes_slot_iff_wide : ∃ s s', fSync (some wideVol) s = .ok () s' ∧
    s.file.dirOffset = 3 ∧ SlotSynced wideVol s s'.dev := by
  obtain ⟨d, hmount⟩ := wide_mount
  let s : OpenFile Disk := ⟨wideDisk, newFile FA_WRITE (2, 3) 3⟩
  obtain ⟨s', hrun, hsynced⟩ := (sync_writes_slot_iff wideVol wideDisk d s hmount (by decide) rfl
    (by decide) (by decide)).mpr (by decide)
  exact ⟨s, s', hrun, rfl, hsynced⟩

/-- The file `F` in the second sector: `f_open` succeeds and `f_write` writes the byte, but `f_sync`
indexes its buffer out of bounds. -/
theorem sync_second_sector_panics : (∃ d, fMount wideDisk = .ok wideVol d) ∧ ∃ file d s,
      fOpen (some wideVol) [0x2F, 0x46] FA_WRITE wideDisk = .ok file d ∧
      runCall (some wideVol) ⟨d, file⟩ (.write [0x61]) = some s ∧
      s.file.modified = true ∧ s.file.dirOffset = 16 ∧ 16 < wideVol.slotsPerCluster ∧
      fSync (some wideVol) s = .fault .panic := by
  obtain ⟨file, d, hopen, s, hs, hmod, hoff⟩ : ∃ file d,
      fOpen (some wideVol) [0x2F, 0x46] FA_WRITE wideDisk = .ok file d ∧
      ∃ s, runCall (some wideVol) ⟨d, file⟩ (.write [0x61]) = some s ∧ s.file.modified = true ∧
        s.file.dirOffset = 16 := by decide +kernel
  exact ⟨wide_mount, file, d, s, hopen, hs, hmod, hoff, by decide, fSync_panics hmod (by omega)⟩

/-! ## New entries -/

/-- The size is behind the start cluster. -/
theorem sizeOf_congr {e e' : Entry} (h : ∀ k, 0x1C ≤ k → e' k = e k) :
    FatVolume.sizeOf e' = FatVolume.sizeOf e :=
  le32_congr fun i _ => h (0x1C + i) (Nat.le_add_right _ _)

/-- `f_open` does not write the size. -/
theorem sizeOf_newEntry (e : Entry) (name : Bytes) (new : Nat) :
    FatVolume.sizeOf (newEntry e name new) = FatVolume.sizeOf e := by
  apply sizeOf_congr
  intro k hk
  rw [newEntry, storeStart_apply (by omega), Buf.set, if_neg (by omega), Buf.store,
    encodeName_length, if_neg (by omega)]

theorem storeDirName_of_ge (e : Entry) (name : Bytes) {k : Nat} (hk : 0x0B ≤ k) :
    storeDirName e 0 name k = e k := by
  have hlen := baseName_length_le name
  have hclear : (replicate 3 (0x20 : UInt8)).length = 3 := length_replicate
  have hstore : ∀ (buf : Buf) (off : Nat) (bytes : Bytes), off + bytes.length ≤ 0x0B →
      buf.store off bytes k = buf k := by
    intro buf off bytes hend
    rw [Buf.store, if_neg (by omega)]
  have hpadded : ∀ buf : Buf, buf k = e k → ∀ n ≤ 8,
      buf.store n (replicate (8 - n) 0x20) k = e k := by
    intro buf hbuf n hn
    rw [hstore _ _ _ (by rw [length_replicate]; omega), hbuf]
  have hfirst :
      (if 8 < name.length then (Buf.store e 0 ((name.take 8).takeWhile (· != 0x2E))).store 8
      (replicate 3 0x20) else Buf.store e 0 ((name.take 8).takeWhile (· != 0x2E))) k = e k := by
    split_ifs
    · rw [hstore _ _ _ (by rw [hclear]), hstore _ _ _ (by omega)]
    · rw [hstore _ _ _ (by omega)]
  simp only [storeDirName, Nat.zero_add]
  cases name.findIdx? (· == 0x2E) with
  | none => exact hpadded _ hfirst _ hlen
  | some dot =>
    refine (hstore _ _ _ ?_).trans (hpadded _ hfirst _ hlen)
    rw [length_append, length_replicate, length_take]
    omega

/-- Neither does `f_mkdir`. -/
theorem sizeOf_newDirEntry (e : Entry) (name : Bytes) (new : Nat) :
    FatVolume.sizeOf (newDirEntry e name new) = FatVolume.sizeOf e := by
  apply sizeOf_congr
  intro k hk
  rw [newDirEntry, storeStart_apply (by omega), Buf.set, if_neg (by omega),
    storeDirName_of_ge _ _ (by omega)]

/-- The entry of a new directory is found by its name. -/
theorem newDirEntry_live (h : LiveName name) (e : Entry) (new : Nat) :
    LiveEntry (newDirEntry e name new) := by
  obtain ⟨hstart, hend⟩ := newDirEntry_stored h.1.storableDir e new
  refine ⟨?_, hend, hstart.not_deleted h.1.ne_nil h.2⟩
  rw [Hidden, newDirEntry_attr]
  decide

section Create

variable {d : Disk} {img₀ : Image}
  {start : Nat} {l : List Nat}

/-- Making the directory claims one free cluster. -/
theorem MadeDir.grown (hg : Geometry vol) (ht : TreeOk vol img) (hname : LiveName name)
    (h : MadeDir vol img new c p name img') : Grown vol img p name new img' [new] := by
  have hlt := hg.lt_end h.valid
  rw [END_MARK] at hlt
  constructor
  · intro x hx
    exact mem_singleton.mp hx ▸ h.fresh
  · intro x hx
    rw [h.fat]
    exact img.setEntry_ne fun heq => hx (heq ▸ mem_cons_self)
  · intro x
    rw [h.fat, Image.mark, Image.high_setEntry]
  · intro r hr hd hi
    refine h.slots r ?_ hr hi
    rintro rfl
    obtain ⟨m, hm⟩ := ht _ hd
    exact chain_next_ne_zero hm hm.head_mem h.fresh
  · rw [h.entry]
    exact newDirEntry_live hname _ new
  · rw [h.entry]
    exact (newDirEntry_stored hname.1.storableDir _ new).1
  · rw [h.entry]
    exact newDirEntry_start _ _ (by omega)

/-- **`f_mkdir`** makes a new directory or fails. -/
theorem fMkdir_new (hg : Geometry vol) (hs : Shows vol d img) (hw : WellFormed vol img)
    (hpath : DirPath vol img path fun _ name => LiveName name) : (fMkdir (some vol) path d).Sat
      (fun _ d' => ∃ c name p new img', CreatedAt vol img path c name p ∧
        MadeDir vol img new c p name img' ∧ Shows vol d' img') fun _ _ => True := by
  have ht := hw.treeOk hg
  rw [fMkdir, withVol]
  apply sat_bind
  refine (resolvePath_steady hg hs.view_eq hw hpath).mono ?_ fun _ _ _ => trivial
  rintro ⟨c, name⟩ d₁ ⟨rfl, hname, hdepth, hsteady⟩
  have hc : DirCluster vol img c := by
    obtain ⟨m, hm⟩ := hdepth
    exact (hm.dirHead hg).dirCluster
  simp only
  split
  · trivial
  split
  · trivial
  apply sat_bind
  refine (findEntryInDir_sat hg hs.view_eq ht hc name).mono ?_ fun _ _ _ => trivial
  rintro r d₂ ⟨rfl, -, hmiss⟩
  cases r with
  | some q => trivial
  | none =>
    refine (mkdirAt_returns hg hs ht hc name).sat.mono ?_ fun _ _ _ => trivial
    rintro - d' ⟨new, p, img', hs', hfirst, hmade⟩
    exact ⟨c, name, p, new, img', ⟨hname, hdepth, hmiss rfl, hfirst, hsteady⟩, hmade, hs'⟩

/-- **`f_stat` of the path reads the new slot.** -/
theorem Grown.stat (hg : Geometry vol) (hw : WellFormed vol img₀) (hv : view vol d = img)
    (hat : CreatedAt vol img₀ path c name p) (h : Grown vol img₀ p name start img l) :
    ∃ info, fStat (some vol) path d = .ok info d ∧
      info.size = FatVolume.sizeOf (img.slot p) ∧ info.startCluster = start := by
  have ht := hw.treeOk hg
  have hc := hat.dirCluster hg
  have hpath := hat.steady d img hv (h.agreeBut hg hw hat)
  have hfind := h.lookup hg ht hv hc hat
  obtain ⟨m, hm⟩ := ht p.1 (hat.first.place hc)
  refine ⟨⟨FatVolume.sizeOf (img.slot p), attrOf (img.slot p), startOf (img.slot p),
    (img.slot p).le16 0x16, (img.slot p).le16 0x18⟩, ?_, rfl, h.entry⟩
  rw [fStat, withVol, Op.bind_ok hpath]
  simp only [if_neg hat.live.1.ne_nil]
  rw [withEntry_some _ hfind, statAt, Op.bind_ok (readEntryData_shows hg hv hm.head_valid p.2)]
  rfl

end Create

/-- After the call `f_stat` shows an empty entry with a cluster that the call allocated. -/
def StatsEmpty (vol : FatVolume) (path : Bytes) (d d' : Disk) (info : FileInfo) : Prop :=
  fStat (some vol) path d' = .ok info d' ∧ info.size = 0 ∧
    (view vol d).next info.startCluster = 0 ∧ END_MARK ≤ (view vol d').next info.startCluster

/-- Where a new entry can be made, the slot for it has no size left from an entry before. -/
def CleanSlot (vol : FatVolume) (path : Bytes) (d : Disk) : Prop :=
  ∀ c name p x, resolvePath vol path d = .ok (c, name) d →
    Misses vol (view vol d) c name → FirstVacant vol (view vol d) c p → vol.Valid x →
    (view vol d).next x = 0 → FatVolume.sizeOf ((view vol d).slot p) = 0

section Empty

variable {d d' : Disk}

theorem AgreeBut.refl (vol : FatVolume) (img : Image) (c : Nat) : AgreeBut vol img img c :=
  fun _ _ _ _ _ hl => ⟨hl, fun _ _ => rfl⟩

/-- With a free cluster and a vacant slot the file is created. -/
theorem openMissing_ok {flags : Nat} (hg : Geometry vol) (hs : Shows vol d img)
    (ht : TreeOk vol img) (hc : DirCluster vol img c) (hfirst : FirstVacant vol img c p)
    (hx : vol.Valid x) (hfree : img.next x = 0)
    (hflags : flags &&& (FA_CREATE_NEW ||| FA_CREATE_ALWAYS ||| FA_OPEN_ALWAYS) ≠ 0)
    (name : Bytes) : ∃ new d' img',
      openMissing vol flags c name d = .ok (newFile flags p new) d' ∧
      Created vol img new p img' ∧ Shows vol d' img' ∧
      img'.slot p = newEntry (img.slot p) name new := by
  have hreturns : (openMissing vol flags c name d).Returns
      (fun file d' => ∃ new q img', file = newFile flags q new ∧ Created vol img new q img' ∧
        Shows vol d' img' ∧ FirstVacant vol img c q ∧
        img'.slot q = newEntry (img.slot q) name new) fun _ _ => False := by
    refine (openMissing_returns hg hs ht hc name).mono (fun _ _ h => h) ?_
    rintro e d' (⟨-, hnone | hfull⟩ | ⟨-, -, -, hused⟩)
    · exact hflags hnone
    · exact hfull x hx hfree
    · exact hused p hfirst
  obtain ⟨file, d', hok, new, q, img', rfl, hcreated, hs', hfirst', hslot⟩ := hreturns.ok
  obtain rfl := hfirst.unique hg hfirst'
  exact ⟨new, d', img', hok, hcreated, hs', hslot⟩

/-- `f_open` creates the entry in the first vacant slot. -/
theorem fOpen_creates (hg : Geometry vol) (hs : Shows vol d img)
    (ht : TreeOk vol img) (hc : DirCluster vol img c)
    (hresolve : resolvePath vol path d = .ok (c, name) d)
    (hfind : vol.findEntryInDir c name d = .ok none d) (hfirst : FirstVacant vol img c p)
    (hx : vol.Valid x) (hfree : img.next x = 0) :
    ∃ new d' img', fOpen (some vol) path (FA_WRITE ||| FA_CREATE_NEW) d =
        .ok (newFile (FA_WRITE ||| FA_CREATE_NEW) p new) d' ∧
      Created vol img new p img' ∧ Shows vol d' img' ∧
      img'.slot p = newEntry (img.slot p) name new := by
  have hflags : (FA_WRITE ||| FA_CREATE_NEW) &&&
      (FA_CREATE_NEW ||| FA_CREATE_ALWAYS ||| FA_OPEN_ALWAYS) ≠ 0 := by decide
  obtain ⟨new, d', img', hmade, hcreated, hs', hslot⟩ :=
    openMissing_ok hg hs ht hc hfirst hx hfree hflags name
  refine ⟨new, d', img', ?_, hcreated, hs', hslot⟩
  rw [fOpen, withVol, openVol, Op.bind_ok hresolve]
  exact (Op.bind_ok hfind).trans hmade

/-- What `f_stat` shows of an entry in a clean slot. -/
theorem statsEmpty_of_clean (hg : Geometry vol) (hw : WellFormed vol (view vol d))
    (hs : Shows vol d' img') (hclean : CleanSlot vol path d)
    (hat : CreatedAt vol (view vol d) path c name p)
    (hgrown : Grown vol (view vol d) p name new img' [new]) (hv : vol.Valid new)
    (hlast : END_MARK ≤ img'.next new)
    (hsize : FatVolume.sizeOf (img'.slot p) = FatVolume.sizeOf ((view vol d).slot p)) :
    ∃ info, StatsEmpty vol path d d' info ∧ info.startCluster = new := by
  have hfree := hgrown.claimed new mem_cons_self
  have hzero :=
    hclean c name p new (hat.steady d _ rfl (.refl vol _ c)) hat.misses hat.first hv hfree
  obtain ⟨info, hstat, hinfo, hstart⟩ := hgrown.stat hg hw hs.view_eq hat
  refine ⟨info, ⟨hstat, ?_, ?_, ?_⟩, hstart⟩
  · rw [hinfo, hsize, hzero]
  · rw [hstart, hfree]
  · rw [hstart, hs.view_eq]
    exact hlast

end Empty

/-- **A new entry is empty on disk exactly when its slot is clean.** On a well-formed volume, when
every parent component of the path selects a subdirectory with a cluster and the last component is
an 8.3 name: the entry that `f_open` or `f_mkdir` made has size 0 and the new start cluster. -/
theorem new_entry_empty_iff (vol : FatVolume) (d : Disk) (path : Bytes) (hg : Geometry vol)
    (hm : Mirrored vol d) (hw : WellFormed vol (view vol d))
    (hpath : DirPath vol (view vol d) path fun _ name => LiveName name) :
    ((∀ file d', fOpen (some vol) path (FA_WRITE ||| FA_CREATE_NEW) d = .ok file d' →
        ∃ info, StatsEmpty vol path d d' info ∧ info.startCluster = file.startCluster) ∧
      ∀ d', fMkdir (some vol) path d = .ok () d' → ∃ info, StatsEmpty vol path d d' info) ↔
    CleanSlot vol path d := by
  have hs := hm.shows
  have ht := hw.treeOk hg
  constructor
  · rintro ⟨hopen, -⟩ c name p x hresolve hmiss hfirst hx hfree
    obtain ⟨-, hname, ⟨m, hdepth⟩, hsteady⟩ :=
      (resolvePath_steady hg rfl hw hpath).of_ok hresolve
    have hc := (hdepth.dirHead hg).dirCluster
    -- nothing is in the way of the new file
    have hfind : vol.findEntryInDir c name d = .ok none d := by
      obtain ⟨l, hl, hscan⟩ := hmiss
      rw [findEntryInDir_eq hg rfl hl, hscan]
      rfl
    obtain ⟨new, d', img', hrun, hcreated, hs', hslot⟩ :=
      fOpen_creates hg hs ht hc hresolve hfind hfirst hx hfree
    obtain ⟨info, ⟨hstat, hsize, -⟩, -⟩ := hopen _ _ hrun
    -- and `f_stat` shows the size that was in the slot before
    obtain ⟨info', hstat', hinfo', -⟩ := (hcreated.grown hname hslot).stat hg hw hs'.view_eq
      ⟨hname, ⟨m, hdepth⟩, hmiss, hfirst, hsteady⟩
    have hsame : info = info' := by
      have heq := hstat.symm.trans hstat'
      cases heq
      rfl
    rw [hslot, sizeOf_newEntry] at hinfo'
    rw [← hinfo', ← hsame, hsize]
  · -- neither call writes the size field, so it is the one of the slot that was clean
    intro hclean
    constructor
    · intro file d' hopen
      obtain ⟨c, name, p, new, img', hat, rfl, hcreated, hs', hslot⟩ :=
        (fOpen_new hg hs hw hpath).of_ok hopen
      refine statsEmpty_of_clean hg hw hs' hclean hat (hcreated.grown hat.live hslot)
        hcreated.valid ?_ ?_
      · rw [hcreated.written.next_eq]
        exact Image.mark_next_self _ new
      · rw [hslot, sizeOf_newEntry]
    · intro d' hmkdir
      obtain ⟨c, name, p, new, img', hat, hmade, hs'⟩ := (fMkdir_new hg hs hw hpath).of_ok hmkdir
      have hlast : END_MARK ≤ img'.next new := by
        rw [Image.next, hmade.fat]
        exact Image.mark_next_self _ new
      obtain ⟨info, hinfo, -⟩ := statsEmpty_of_clean hg hw hs' hclean hat
        (hmade.grown hg ht hat.live) hmade.valid hlast (by rw [hmade.entry, sizeOf_newDirEntry])
      exact ⟨info, hinfo⟩

/-- The path `/X` on the second sample volume. -/
theorem second_path_X : DirPath tinyVol secondImage [0x2F, 0x58] fun _ name => LiveName name :=
  liveName_X

/-- The slot behind the entries of the root directory was never used. -/
theorem new_entry_empty_iff_second :
    (∃ file d' info, fOpen (some tinyVol) [0x2F, 0x58] (FA_WRITE ||| FA_CREATE_NEW) secondDisk =
      .ok file d' ∧ StatsEmpty tinyVol [0x2F, 0x58] secondDisk d' info ∧
      info.startCluster = file.startCluster) ∧
    ∃ d' info, fMkdir (some tinyVol) [0x2F, 0x58] secondDisk = .ok () d' ∧
      StatsEmpty tinyVol [0x2F, 0x58] secondDisk d' info := by
  have hclean : CleanSlot tinyVol [0x2F, 0x58] secondDisk := by
    intro c name p x hresolve _ hfirst _ _
    have hpath : resolvePath tinyVol [0x2F, 0x58] secondDisk = .ok (2, [0x58]) secondDisk := rfl
    have heq := hpath.symm.trans hresolve
    cases heq
    rw [← second_firstVacant.unique tiny_geometry hfirst]
    decide +kernel
  obtain ⟨hopen, hmkdir⟩ := (new_entry_empty_iff tinyVol secondDisk [0x2F, 0x58] tiny_geometry
    (tiny_mirrored _) second_wellFormed second_path_X).mpr hclean
  constructor
  · obtain ⟨file, d', hok⟩ : ∃ file d', fOpen (some tinyVol) [0x2F, 0x58]
        (FA_WRITE ||| FA_CREATE_NEW) secondDisk = .ok file d' := by decide +kernel
    obtain ⟨info, hinfo⟩ := hopen file d' hok
    exact ⟨file, d', info, hok, hinfo⟩
  · obtain ⟨d', hok⟩ : ∃ d', fMkdir (some tinyVol) [0x2F, 0x58] secondDisk = .ok () d' := by
      decide +kernel
    obtain ⟨info, hinfo⟩ := hmkdir d' hok
    exact ⟨d', info, hok, hinfo⟩

/-- A file `X` of one byte is created, written, synchronised and removed. The file `Y` and the
directory `Y` made then get its slot, with its size. -/
theorem new_entry_keeps_size :
    Geometry tinyVol ∧ Mirrored tinyVol secondDisk ∧ WellFormed tinyVol secondImage ∧
    ∃ file d₁ s d₂, fOpen (some tinyVol) [0x2F, 0x58] (FA_WRITE ||| FA_CREATE_NEW) secondDisk =
        .ok file d₁ ∧
      runSteps (runWriteCall tinyVol) ⟨d₁, file⟩ [.write [0x61], .sync] = some s ∧
      fUnlink (some tinyVol) [0x2F, 0x58] s.dev = .ok () d₂ ∧
      (∃ file' d₃ info d₄,
        fOpen (some tinyVol) [0x2F, 0x59] (FA_WRITE ||| FA_CREATE_NEW) d₂ = .ok file' d₃ ∧
        fStat (some tinyVol) [0x2F, 0x59] d₃ = .ok info d₄ ∧ info.size = 1) ∧
      ∃ d₃ info d₄, fMkdir (some tinyVol) [0x2F, 0x59] d₂ = .ok () d₃ ∧
        fStat (some tinyVol) [0x2F, 0x59] d₃ = .ok info d₄ ∧ info.size = 1 := by
  obtain ⟨file, d₁, hopen, s, hs, d₂, hunlink, ⟨file', d₃, hopen', info, d₄, hstat⟩, d₅,
      hmkdir, info', d₆, hstat'⟩ : ∃ file d₁,
      fOpen (some tinyVol) [0x2F, 0x58] (FA_WRITE ||| FA_CREATE_NEW) secondDisk = .ok file d₁ ∧
      ∃ s, runSteps (runWriteCall tinyVol) ⟨d₁, file⟩ [.write [0x61], .sync] = some s ∧
      ∃ d₂, fUnlink (some tinyVol) [0x2F, 0x58] s.dev = .ok () d₂ ∧
      (∃ file' d₃, fOpen (some tinyVol) [0x2F, 0x59] (FA_WRITE ||| FA_CREATE_NEW) d₂ =
          .ok file' d₃ ∧
        ∃ info d₄, fStat (some tinyVol) [0x2F, 0x59] d₃ = .ok info d₄ ∧ info.size = 1) ∧
      ∃ d₃, fMkdir (some tinyVol) [0x2F, 0x59] d₂ = .ok () d₃ ∧
        ∃ info d₄, fStat (some tinyVol) [0x2F, 0x59] d₃ = .ok info d₄ ∧ info.size = 1 := by
    decide +kernel
  exact ⟨tiny_geometry, tiny_mirrored _, second_wellFormed, file, d₁, s, d₂, hopen, hs, hunlink,
    ⟨file', d₃, info, d₄, hopen', hstat⟩, d₅, info', d₆, hmkdir, hstat'⟩

end PlanckOS.Fat32
