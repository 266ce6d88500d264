import PlanckOS.Fat32.Slots
import PlanckOS.Fat32.Calls
import PlanckOS.Fat32.Reading

/-!
# Opening a file

The two branches of `f_open`, and what a handle on a slot of the tree relies on. `Created` is the
effect of the branch that makes a new file. `Attached vol img f l` ties an open handle to the tree:
all other owners are well formed, the slot of the handle is no directory, and the handle's chain `l`
shares no cluster with theirs. `f_open` establishes it and every call on the handle preserves it,
without touching the chains of the others (`Attached.of_kept`).
-/

set_option autoImplicit false

namespace PlanckOS.Fat32

open Lib.Fallible Lib.Chain FatVolume List

variable {vol : FatVolume} {img : Image} {flags new x : Nat} {p : Slot} {l l' : List Nat}

/-! ## Creating an entry -/

/-- Slot `p` became a regular file whose only cluster is `new`. -/
structure Created (vol : FatVolume) (img : Image) (new : Nat) (p : Slot) (img' : Image) : Prop where
  valid : vol.Valid new
  fresh : img.next new = 0
  place : DirCluster vol img p.1
  index : p.2 < vol.slotsPerCluster
  dead : ¬ LiveEntry (img.slot p)
  written : SlotWritten vol (img.mark new) img' p
  regular : ¬ IsDirEntry (img'.slot p)
  start : startOf (img'.slot p) = new

/-- The handle on a new file. -/
def newFile (flags : Nat) (p : Slot) (new : Nat) : File where
  size := 0
  position := 0
  startCluster := new
  currentCluster := new
  sectorInCluster := 0
  byteInSector := 0
  flags := flags
  dirSector := p.1
  dirOffset := p.2
  modified := true
  error := .ok

/-- The handle on the entry `e` in slot `p`. -/
def oldFile (flags : Nat) (p : Slot) (e : Entry) : File where
  size := FatVolume.sizeOf e
  position := 0
  startCluster := startOf e
  currentCluster := startOf e
  sectorInCluster := 0
  byteInSector := 0
  flags := flags
  dirSector := p.1
  dirOffset := p.2
  modified := false
  error := .ok

section Branches

variable {d : Disk} {c : Nat}

section

variable (e : Entry) (name : Bytes)

/-- The entry that `f_open` writes over the bytes `e` of a vacant slot. -/
def newEntry (new : Nat) : Entry :=
  storeStart ((Buf.store e 0 (encodeName name)).set 0x0B 0x20) 0 new

theorem newEntry_attr (new : Nat) : attrOf (newEntry e name new) = 0x20 := by
  rw [attrOf, newEntry, storeStart_apply (by decide), Buf.set, if_pos rfl]
  rfl

theorem newEntry_regular (new : Nat) : ¬ IsDirEntry (newEntry e name new) := by
  rw [IsDirEntry, newEntry_attr]
  decide

theorem newEntry_start (h : new < 2 ^ 32) :
    startOf (newEntry e name new) = new := startOf_storeStart _ h

end

/-- The edit of the slot that `f_open` writes for a new file. -/
theorem newEntry_edit (i new : Nat) (name : Bytes) :
    SlotEdit i (fun buf => storeStart ((buf.store (i * DIR_SIZE) (encodeName name)).set
      (i * DIR_SIZE + 0x0B) 0x20) (i * DIR_SIZE) new) (newEntry · name new) := by
  have hname : 0 + (encodeName name).length ≤ 32 := by
    rw [encodeName_length]
    decide
  exact ((slotEdit_store i hname).comp (slotEdit_set i (by decide) 0x20)).comp
    (slotEdit_storeStart i new)

/-- There is no creating flag or no free cluster, or the directory is full; in the last case a
cluster was allocated. -/
def NotMade (vol : FatVolume) (img : Image) (c flags : Nat) (d d' : Disk) : Prop :=
  (d' = d ∧ (flags &&& (FA_CREATE_NEW ||| FA_CREATE_ALWAYS ||| FA_OPEN_ALWAYS) = 0 ∨
      ∀ x, vol.Valid x → img.next x ≠ 0)) ∨
    ∃ new, img.next new = 0 ∧ Shows vol d' (img.mark new) ∧ ∀ p, ¬ FirstVacant vol img c p

variable (hg : Geometry vol) (hs : Shows vol d img) (hv : view vol d = img) (ht : TreeOk vol img)
  (hc : DirCluster vol img c) {path : Bytes} {file : File}

include hg hs in
/-- **The branch for a name that was not found.** The entry is written to the first vacant slot of
the chain. -/
theorem openMissing_chain (hl : img.Chain vol c l) (name : Bytes) :
    (openMissing vol flags c name d).Returns
      (fun file d' => ∃ new p img', file = newFile flags p new ∧ vol.Valid new ∧
        img.next new = 0 ∧ SlotWritten vol (img.mark new) img' p ∧
        Shows vol d' img' ∧ FirstVacant vol img c p ∧
        img'.slot p = newEntry (img.slot p) name new)
      fun _ d' => NotMade vol img c flags d d' := by
  rw [openMissing]
  by_cases hflag : flags &&& (FA_CREATE_NEW ||| FA_CREATE_ALWAYS ||| FA_OPEN_ALWAYS) = 0
  · rw [if_pos hflag]
    exact .inl ⟨rfl, .inl hflag⟩
  rw [if_neg hflag]
  rcases allocCluster_cases hg hs with ⟨new, d₁, halloc, hv, hfree, hs₁⟩ | ⟨halloc, hnone⟩
  · apply returns_bind_ok halloc
    -- marking a free cluster changes no chain, so the search finds the slot of before
    have hspares := Spares.mark hfree
    apply returns_bind
    refine (findSlot_chain hg hs₁.view_eq (hspares.chain hl)).mono ?_ ?_
    · rintro ⟨dest, idx, buf⟩ d₂ ⟨rfl, hvacant, hbuf⟩
      simp only at hvacant hbuf
      subst hbuf
      have hfirst := (hspares.firstVacant_iff hg hl).mp hvacant
      obtain ⟨d₃, img₃, hrun, hs₃, hwritten, hslot⟩ :=
        (newEntry_edit idx new name).write hg hs₁ (p := (dest, idx)) (hfirst.valid hg hl)
          hfirst.index
      apply returns_bind_ok hrun
      exact ⟨new, (dest, idx), img₃, rfl, hv, hfree, hwritten, hs₃, hfirst, hslot⟩
    · -- `f_open` does not give the cluster back when there is no slot
      rintro e d₂ ⟨rfl, hfull⟩
      refine .inr ⟨new, hfree, hs₁, fun p hp => ?_⟩
      exact hfull p ((hspares.firstVacant_iff hg hl).mpr hp)
  · apply returns_bind
    exact returns_of_err halloc (.inl ⟨rfl, .inr hnone⟩)

include hg hs ht hc in
/-- The same in a directory of the tree. -/
theorem openMissing_returns (name : Bytes) : (openMissing vol flags c name d).Returns
      (fun file d' => ∃ new p img', file = newFile flags p new ∧ Created vol img new p img' ∧
        Shows vol d' img' ∧ FirstVacant vol img c p ∧
        img'.slot p = newEntry (img.slot p) name new)
      fun _ d' => NotMade vol img c flags d d' := by
  obtain ⟨l, hl⟩ := ht c hc
  refine (openMissing_chain hg hs hl name).mono ?_ fun _ _ h => h
  rintro file d' ⟨new, p, img', hfile, hv, hfree, hwritten, hs', hfirst, hslot⟩
  have hlt := hg.lt_end hv
  rw [END_MARK] at hlt
  refine ⟨new, p, img', hfile, ?_, hs', hfirst, hslot⟩
  constructor
  · exact hv
  · exact hfree
  · exact hfirst.place hc
  · exact hfirst.index
  · exact hfirst.vacant.not_live
  · exact hwritten
  · rw [hslot]
    exact newEntry_regular _ name new
  · rw [hslot]
    exact newEntry_start _ name (by omega)

include hg hs ht hc in
/-- The same without the place and the name of the entry. -/
theorem openMissing_sat (name : Bytes) : (openMissing vol flags c name d).Sat
      (fun file d' => ∃ new p img', file = newFile flags p new ∧ Created vol img new p img' ∧
        Shows vol d' img')
      (fun _ d' => d' = d ∨ ∃ new, img.next new = 0 ∧ Shows vol d' (img.mark new)) := by
  refine (openMissing_returns hg hs ht hc name).sat.mono ?_ ?_
  · rintro file d' ⟨new, p, img', hfile, hcreated, hs', -⟩
    exact ⟨new, p, img', hfile, hcreated, hs'⟩
  · rintro e d' (⟨rfl, -⟩ | ⟨new, hfree, hs', -⟩)
    · exact .inl rfl
    · exact .inr ⟨new, hfree, hs'⟩

include hg hv in
/-- Opening an entry that the lookup returns, without truncation. -/
theorem fOpen_found {path name : Bytes} (hpath : resolvePath vol path d = .ok (c, name) d)
    (hfind : vol.findEntryInDir c name d = .ok (some p) d) (hp : vol.Valid p.1)
    (hnew : flags &&& FA_CREATE_NEW = 0) (halways : flags &&& FA_CREATE_ALWAYS = 0) :
    fOpen (some vol) path flags d = .ok (oldFile flags p (img.slot p)) d := by
  rw [fOpen, withVol, openVol, Op.bind_ok hpath]
  refine (Op.bind_ok hfind).trans ?_
  simp only
  rw [openExisting, if_neg (not_not_intro hnew), Op.bind_ok (readEntryData_shows hg hv hp p.2),
    if_neg (not_not_intro halways)]
  rfl

section

variable (hflags : flags &&& (FA_CREATE_NEW ||| FA_CREATE_ALWAYS ||| FA_OPEN_ALWAYS) = 0)
  (halways : flags &&& FA_CREATE_ALWAYS = 0)
include hflags halways

/-- `f_open` without a creating flag changes nothing, and the handle is on an entry that was
found. -/
theorem fOpen_plain {d₁ : Disk} (hopen : fOpen (some vol) path flags d = .ok file d₁) :
    d₁ = d ∧ ∃ p e, file = oldFile flags p e := by
  have hsat : (openVol vol path flags d).Sat
      (fun f d' => d' = d ∧ ∃ p e, f = oldFile flags p e) fun _ _ => True := by
    rw [openVol]
    apply sat_bind
    refine (resolvePath_readOnly vol path d).mono ?_ fun _ _ _ => trivial
    rintro ⟨c, name⟩ d' rfl
    apply sat_bind
    refine (findEntryInDir_readOnly vol c name d').mono ?_ fun _ _ _ => trivial
    rintro (_ | p) d rfl
    · rw [openMissing, if_pos hflags]
      trivial
    · show (openExisting vol flags p.1 p.2 d).Sat _ _
      rw [openExisting]
      split
      · trivial
      · apply sat_bind
        refine (readEntryData_readOnly vol p.1 p.2 d).mono ?_ fun _ _ _ => trivial
        rintro e d' rfl
        rw [if_neg (not_not_intro halways)]
        exact ⟨rfl, p, e, rfl⟩
  exact hsat.of_ok hopen

theorem fOpen_unchanged (h : ∃ d', fOpen (some vol) path flags d = .ok file d') :
    fOpen (some vol) path flags d = .ok file d := by
  obtain ⟨d', hopen⟩ := h
  obtain ⟨rfl, -⟩ := fOpen_plain hflags halways hopen
  exact hopen

end

include hg hv in
/-- **The branch for a name that was found**, without truncation. -/
theorem openExisting_sat (hp : vol.Valid p.1) (hflags : flags &&& FA_CREATE_ALWAYS = 0) :
    (openExisting vol flags p.1 p.2 d).Sat
      (fun file d' => d' = d ∧ file = oldFile flags p (img.slot p)) fun _ d' => d' = d := by
  rw [openExisting]
  by_cases hnew : flags &&& FA_CREATE_NEW ≠ 0
  · rw [if_pos hnew]
    exact rfl
  rw [if_neg hnew]
  apply sat_bind_ok (readEntryData_shows hg hv hp p.2)
  rw [if_neg (not_not_intro hflags)]
  exact ⟨rfl, rfl⟩

include hg hv ht in
/-- `f_open` along a path that stays in the tree: one of the two branches, or an error that changed
nothing. -/
theorem openVol_sat {final : Nat → Bytes → Prop} (hpath : PathInTree vol img path final)
    {Q : File → Disk → Prop} {E : FError → Disk → Prop} (herr : ∀ e, E e d)
    (hold : ∀ c name p, DirCluster vol img c → final c name → Selects vol img c name p →
      (openExisting vol flags p.1 p.2 d).Sat Q E)
    (hnew : ∀ c name, DirCluster vol img c → final c name → Misses vol img c name →
      (openMissing vol flags c name d).Sat Q E) :
    (openVol vol path flags d).Sat Q E := by
  rw [openVol]
  apply sat_bind
  refine (resolvePath_sat hg hv ht hpath).mono ?_ ?_
  · rintro ⟨c, name⟩ d₁ ⟨rfl, hc, hfinal⟩
    apply sat_bind
    refine (findEntryInDir_sat hg hv ht hc name).mono ?_ fun _ _ h => h.elim
    rintro r d₂ ⟨rfl, hsel, hmiss⟩
    cases r with
    | some p => exact hold c name p hc hfinal (hsel p rfl)
    | none => exact hnew c name hc hfinal (hmiss rfl)
  · rintro e d₁ rfl
    exact herr e

end Branches

/-! ## `f_sync` -/

/-- The slot of a handle. -/
def File.slot (f : File) : Slot := (f.dirSector, f.dirOffset)

/-- The entry `e` with the size and the start cluster of a handle. -/
def syncedEntry (e : Entry) (f : File) : Entry :=
  storeStart (Buf.store e 0x1C (bytes32 f.size)) 0 f.startCluster

theorem syncedEntry_of_lt (e : Entry) (f : File) {k : Nat} (hk : k < 0x14) :
    syncedEntry e f k = e k := by
  rw [syncedEntry, storeStart_apply (.inl hk), Buf.store, if_neg (by omega)]

/-- The edit that `f_sync` makes in the slot of the handle. -/
theorem slotEdit_synced (f : File) : SlotEdit f.dirOffset
    (fun buf => storeStart (buf.store (f.dirOffset * DIR_SIZE + 0x1C) (bytes32 f.size))
      (f.dirOffset * DIR_SIZE) f.startCluster) (syncedEntry · f) :=
  (slotEdit_store _ (a := 0x1C) (le_refl 32)).comp (slotEdit_storeStart _ _)

/-- **`f_sync`** writes the entry of a modified file, when its slot is in the first sector of its
cluster, and does nothing else. -/
theorem fSync_sat {s : OpenFile Disk} (hg : Geometry vol)
    (hs : Shows vol s.dev img) (hp : vol.Valid s.file.slot.1) : (fSync (some vol) s).Sat
      (fun _ s' => (s.file.modified = false ∧ s' = s) ∨
        (s.file.modified = true ∧ s'.file = { s.file with modified := false } ∧
          s.file.dirOffset * 32 + 32 ≤ 512 ∧
          ∃ img', Shows vol s'.dev img' ∧ SlotWritten vol img img' s.file.slot ∧
            img'.slot s.file.slot = syncedEntry (img.slot s.file.slot) s.file))
      fun _ _ => False := by
  rw [fSync]
  apply sat_bind_ok (getFile_run s)
  cases hm : s.file.modified with
  | false => exact .inl ⟨rfl, rfl⟩
  | true =>
    apply sat_bind_ok (onVol_pure _ _)
    apply sat_bind_ok (onVol_ok (readSector_disk _ _))
    by_cases hoff : SECTOR_SIZE < s.file.dirOffset * DIR_SIZE + DIR_SIZE
    · rw [if_pos hoff]
      trivial
    rw [if_neg hoff]
    have hin : s.file.dirOffset * 32 + 32 ≤ 512 := Nat.not_lt.mp hoff
    obtain ⟨d', img', hrun, hs', hwritten, hslot⟩ :=
      SlotEdit.writeSector hg hs (p := s.file.slot) hp hin (slotEdit_synced s.file)
    apply sat_bind_ok (onVol_ok hrun)
    apply sat_of_ok (updateFile_run _ _)
    exact .inr ⟨rfl, rfl, hin, img', hs', hwritten, hslot⟩

/-! ## Handles and the tree -/

/-- The handle `f` with the chain `l` works on its slot of the tree. -/
structure Attached (vol : FatVolume) (img : Image) (f : File) (l : List Nat) : Prop where
  others : WellFormedBut vol img f.slot
  entry : ¬ Subdirectory (img.slot f.slot)
  place : DirCluster vol img f.slot.1
  index : f.slot.2 < vol.slotsPerCluster
  handle : Handle vol img f l
  own : ∀ x ∈ l, ¬ Protected vol img f.slot x
  linked : f.modified = false →
    startOf (img.slot f.slot) = f.startCluster ∨ startOf (img.slot f.slot) = 0

section Tree

variable {img' : Image} {f : File}

/-- A chain that shares no cluster with the protected ones leaves them alone. -/
theorem Confined.protects (h : Confined img img' l l')
    (hown : ∀ x ∈ l, ¬ Protected vol img p x) (hx : Protected vol img p x) :
    img'.fat x = img.fat x ∧ img'.data x = img.data x :=
  h.frame x (fun hmem => hown x hmem hx) hx.next_ne_zero

/-- The reserved entries are outside of every footprint. -/
theorem Confined.reserved (h : Confined img img' l l') (hf : Grip vol img f l)
    (hx : x < 2) (hend : END_MARK ≤ img.next x) : img'.fat x = img.fat x := by
  refine (h.frame x ?_ ?_).1
  · intro hmem
    rcases hf.chain with ⟨-, rfl⟩ | hl
    · exact absurd hmem not_mem_nil
    · have := (hl.valid_of_mem hmem).1
      omega
  · rw [END_MARK] at hend
    omega

/-- **A call on the handle keeps it attached and leaves all other chains alone.** -/
theorem Attached.of_kept {s' : OpenFile Disk} (hg : Geometry vol) (h : Attached vol img f l)
    (hk : Kept vol img l f s') : ∃ img' l', Shows vol s'.dev img' ∧ Attached vol img' s'.file l' ∧
      s'.file.slot = f.slot ∧ img'.slot f.slot = img.slot f.slot ∧
      (∀ x, Protected vol img f.slot x → img'.fat x = img.fat x ∧ img'.data x = img.data x) ∧
      ∀ x < 2, img'.fat x = img.fat x := by
  obtain ⟨img', l', hk⟩ := hk
  have hprot : ∀ x, Protected vol img f.slot x →
      img'.fat x = img.fat x ∧ img'.data x = img.data x :=
    fun x hx => hk.confined.protects h.own hx
  -- directories belong to other entries, so the call has not written to any slot
  have hdata : ∀ c, DirCluster vol img c → img'.data c = img.data c := fun c hc =>
    (hprot c (h.others.dir_protected hg h.entry hc)).2
  have hslots : ∀ q : Slot, DirCluster vol img q.1 → img'.slot q = img.slot q := by
    intro q hq
    rw [Image.slot, Image.slot, hdata q.1 hq]
  have hentry := hslots f.slot h.place
  have hret : Retained vol img img' f.slot := by
    refine ⟨h.entry, hentry ▸ h.entry, ?_, fun q _ hq _ => hslots q hq⟩
    intro x hx
    rw [Image.next, Image.next, (hprot x hx).1]
  have hslot : s'.file.slot = f.slot := by
    rw [File.slot, File.slot, hk.dirSector, hk.dirOffset]
  have hreserved : ∀ x < 2, img'.fat x = img.fat x := by
    intro x hx
    refine hk.confined.reserved h.handle.toGrip hx ?_
    interval_cases x
    · exact h.others.first
    · exact h.others.second
  have hnext : ∀ x < 2, img'.next x = img.next x := by
    intro x hx
    rw [Image.next, Image.next, hreserved x hx]
  refine ⟨img', l', hk.shows, ?_, hslot, hentry, hprot, hreserved⟩
  constructor
  · rw [hslot]
    exact hret.wellFormedBut hg h.others ((hnext 0 (by decide)).symm ▸ h.others.first)
      ((hnext 1 (by decide)).symm ▸ h.others.second)
  · rw [hslot, hentry]
    exact h.entry
  · rw [hslot]
    exact (hret.dirCluster_iff hg h.others).mpr h.place
  · rw [hslot]
    exact h.index
  · exact hk.handle
  · -- a cluster that joined the chain was free before
    intro x hx hp
    rw [hslot] at hp
    have hp' := (hret.protected_iff hg h.others).mp hp
    rcases hk.confined.grows x hx with hmem | hfree
    · exact h.own x hmem hp'
    · exact hp'.next_ne_zero hfree
  · intro hm
    obtain ⟨hm', hstart⟩ := hk.unmodified hm
    rw [hslot, hentry]
    rcases hstart with hstart | hzero
    · rw [hstart]
      exact h.linked hm'
    · exact .inr ((h.linked hm').elim (fun h => h.trans hzero) id)

/-- A new file has one cluster. -/
theorem Created.chain (h : Created vol img new p img') : img'.Chain vol new [new] := by
  apply IsChain.last h.valid
  rw [h.written.next_eq]
  exact img.mark_next_self new

/-- A new file is attached to its slot. -/
theorem Created.attached (hg : Geometry vol) (hw : WellFormed vol img)
    (h : Created vol img new p img') : Attached vol img' (newFile flags p new) [new] := by
  have hold : ∀ x, img.next x ≠ 0 → img'.fat x = img.fat x := by
    intro x hx
    rw [h.written.fat]
    exact img.setEntry_ne fun hxn => hx (hxn ▸ h.fresh)
  have hnext : ∀ x, img.next x ≠ 0 → img'.next x = img.next x := by
    intro x hx
    rw [Image.next, Image.next, hold x hx]
  have hret : Retained vol img img' p := by
    refine ⟨not_subdirectory_of_not_live h.dead, not_subdirectory_of_regular h.regular, ?_, ?_⟩
    · exact fun x hx => hnext x hx.next_ne_zero
    · exact fun q hq _ hi => h.written.slots q hq hi
  have hbut := hw.but p
  have hends : ∀ x, END_MARK ≤ img.next x → END_MARK ≤ img'.next x := by
    intro x hx
    rwa [hnext x (by rw [END_MARK] at hx; omega)]
  have hchain := h.chain
  constructor
  · exact hret.wellFormedBut hg hbut (hends 0 hw.first) (hends 1 hw.second)
  · exact hret.entry'
  · exact (hret.dirCluster_iff hg hbut).mpr h.place
  · exact h.index
  · exact ⟨⟨.inr hchain, .inr mem_cons_self, hg.spc_pos⟩, Nat.zero_lt_succ _⟩
  · intro x hx hp
    have hp' := (hret.protected_iff hg hbut).mp hp
    exact hp'.next_ne_zero (mem_singleton.mp hx ▸ h.fresh)
  · intro hm
    cases hm

/-- The owner of a regular slot shares no cluster with the other owners. -/
theorem WellFormed.own (hw : WellFormed vol img) (hlive : Owner.Live vol img (some p))
    (hx : Owner.Holds vol img (some p) x) : ¬ Protected vol img p x := by
  rintro ⟨o, ho, hne, hox⟩
  exact hw.disjoint o (some p) ho hlive hne x hox hx

/-- A handle on a regular file of the tree is attached to its slot. -/
theorem oldFile_attached (hg : Geometry vol) (hw : WellFormed vol img)
    (hplace : DirCluster vol img p.1) (hindex : p.2 < vol.slotsPerCluster)
    (hlive : LiveEntry (img.slot p)) (hreg : ¬ IsDirEntry (img.slot p)) :
    ∃ l, Attached vol img (oldFile flags p (img.slot p)) l := by
  have hown : Owner.Live vol img (some p) := ⟨hplace, hindex, hlive, not_dot_of_regular hreg⟩
  have hsub := not_subdirectory_of_regular hreg
  rcases hw.heads _ hown with h0 | ⟨l, hl⟩
  · refine ⟨[], hw.but p, hsub, hplace, hindex, ?_, ?_, fun _ => .inl rfl⟩
    · exact ⟨⟨.inl ⟨h0, rfl⟩, .inl h0, hg.spc_pos⟩, Nat.zero_lt_succ _⟩
    · exact fun x hx => absurd hx not_mem_nil
  · refine ⟨l, hw.but p, hsub, hplace, hindex, ?_, ?_, fun _ => .inl rfl⟩
    · exact ⟨⟨.inr hl, .inr hl.head_mem, hg.spc_pos⟩, Nat.zero_lt_succ _⟩
    · exact fun x hx => hw.own hown ⟨l, hl, hx⟩

end Tree

end PlanckOS.Fat32
