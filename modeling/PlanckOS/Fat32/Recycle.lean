import PlanckOS.Fat32.Names

/-!
# Creating, writing and removing a file

A file that is created, written to and removed again gives back every cluster it took. `Grown`
compares the volume during the calls on the new handle with the volume before the `f_open`: the
table differs in the clusters of the new chain `l` only, all of which were free, and the directories
differ in the new slot only. The calls of `f_write` and `f_sync` preserve it (`fWrite_growing`,
`fSync_growing`), whether they succeed or run out of clusters.

`f_unlink` starts from the path again. Because the path leads through subdirectories, it comes to
the same directory (`Grown.agreeBut`), where the slot of the new file is the first that matches
(`Grown.lookup`); the chain that it then frees is the one in the slot, and the slot has the start
cluster of the handle.
-/

set_option autoImplicit false

namespace PlanckOS.Fat32

open Lib.Fallible FatVolume List
open Lib.Transition

variable {vol : FatVolume} {img₀ img img' : Image} {p : Slot} {name path : Bytes}
  {start c new : Nat} {l : List Nat} {d : Disk}

/-! ## Calls on the new handle -/

/-- A call between the `f_open` and the `f_unlink`. -/
inductive WriteCall where
  | write (buf : Bytes)
  | sync
  deriving DecidableEq, Repr

/-- The device and the handle after the call, also when it ran out of clusters. -/
def runWriteCall (vol : FatVolume) (s : OpenFile Disk) : WriteCall → Option (OpenFile Disk)
  | .write buf => Outcome.after (fWrite (some vol) buf s)
  | .sync => Outcome.after (fSync (some vol) s)

/-! ## What they leave alone -/

/-- The image `img` differs from `img₀` by a file in slot `p` whose clusters are `l`. -/
structure Grown (vol : FatVolume) (img₀ : Image) (p : Slot) (name : Bytes) (start : Nat)
    (img : Image) (l : List Nat) : Prop where
  claimed : ∀ x ∈ l, img₀.next x = 0
  table : ∀ x, x ∉ l → img.fat x = img₀.fat x
  high : ∀ x, img.fat x / 2 ^ 28 = img₀.fat x / 2 ^ 28
  slots : ∀ r, r ≠ p → DirCluster vol img₀ r.1 → r.2 < vol.slotsPerCluster →
    img.slot r = img₀.slot r
  live : LiveEntry (img.slot p)
  named : StartsWith name (img.slot p)
  entry : startOf (img.slot p) = start

namespace Grown

variable {l' : List Nat}

/-- The table entries of the directories are those of the volume before. -/
theorem dir_not_mem (ht : TreeOk vol img₀) (h : Grown vol img₀ p name start img l)
    (hc : DirCluster vol img₀ c) : c ∉ l := by
  intro hmem
  obtain ⟨m, hm⟩ := ht c hc
  exact chain_next_ne_zero hm hm.head_mem (h.claimed c hmem)

variable (h : Grown vol img₀ p name start img l)
include h

theorem next_eq {x : Nat} (hx : x ∉ l) : img.next x = img₀.next x := by
  rw [Image.next, Image.next, h.table x hx]

omit h in
/-- The chain of a directory is the same. -/
theorem dir_chain (ht : TreeOk vol img₀) (h : Grown vol img₀ p name start img l)
    {m : List Nat} (hc : DirCluster vol img₀ c) (hm : img₀.Chain vol c m) : img.Chain vol c m :=
  hm.congr fun x hx => h.next_eq (h.dir_not_mem ht (hc.of_chain hm x hx))

omit h in
/-- Writing into a cluster of the file. -/
theorem storeData (ht : TreeOk vol img₀) (hp : DirCluster vol img₀ p.1)
    (h : Grown vol img₀ p name start img l) (hc : c ∈ l) (off : Nat)
    (bytes : Bytes) : Grown vol img₀ p name start (img.storeData c off bytes) l := by
  have hslot : ∀ r : Slot, DirCluster vol img₀ r.1 →
      (img.storeData c off bytes).slot r = img.slot r := by
    intro r hr
    have hne : r.1 ≠ c := fun heq => h.dir_not_mem ht hr (heq ▸ hc)
    rw [Image.slot, Image.slot, Image.storeData, Image.setData_ne _ hne]
  refine ⟨h.claimed, h.table, h.high, ?_, ?_, ?_, ?_⟩
  · intro r hr hd hi
    rw [hslot r hd, h.slots r hr hd hi]
  · rw [hslot p hp]
    exact h.live
  · rw [hslot p hp]
    exact h.named
  · rw [hslot p hp, h.entry]

/-- Adding clusters to the file. -/
theorem extend (hconf : Confined img img' l l') (hsub : ∀ x ∈ l, x ∈ l')
    (htab : TableOnly img img' l') :
    Grown vol img₀ p name start img' l' := by
  have hslot : ∀ r, img'.slot r = img.slot r := by
    intro r
    rw [Image.slot, Image.slot, htab.data]
  constructor
  · intro x hx
    by_cases hxl : x ∈ l
    · exact h.claimed x hxl
    · rw [← h.next_eq hxl]
      exact (hconf.grows x hx).resolve_left hxl
  · intro x hx
    rw [htab.fat x hx, h.table x fun hxl => hx (hsub x hxl)]
  · intro x
    rw [htab.high, h.high]
  · intro r hr hd hi
    rw [hslot, h.slots r hr hd hi]
  · rw [hslot]
    exact h.live
  · rw [hslot]
    exact h.named
  · rw [hslot, h.entry]

/-- Writing the entry again with the same name, attributes and start cluster. -/
theorem rewrite (hw : SlotWritten vol img img' p)
    (hbytes : ∀ k ≤ 0x0B, img'.slot p k = img.slot p k) (hstart : startOf (img'.slot p) = start) :
    Grown vol img₀ p name start img' l := by
  constructor
  · exact h.claimed
  · intro x hx
    rw [hw.fat, h.table x hx]
  · intro x
    rw [hw.fat, h.high]
  · intro r hr hd hi
    rw [hw.slots r hr hi, h.slots r hr hd hi]
  · exact (entry_kind_congr hbytes).1.mpr h.live
  · exact h.named.congr fun k hk => hbytes k (by omega)
  · exact hstart

end Grown

/-- The handle on the new file, with its cursor in the chain. -/
structure Growing (vol : FatVolume) (img₀ : Image) (p : Slot) (name : Bytes)
    (s : OpenFile Disk) (img : Image) (l : List Nat) : Prop where
  shows : Shows vol s.dev img
  grown : Grown vol img₀ p name s.file.startCluster img l
  slot : s.file.slot = p
  handle : Handle vol img s.file l
  current : s.file.currentCluster ∈ l

/-- The same for some image and some chain. -/
def Grows (vol : FatVolume) (img₀ : Image) (p : Slot) (name : Bytes) (s : OpenFile Disk) : Prop :=
  ∃ img l, Growing vol img₀ p name s img l

/-! ## `f_write` and `f_sync` -/

section Steps

variable {s s' : OpenFile Disk}

/-- The table entry 0 is outside of every chain. -/
theorem Growing.first (h : Growing vol img₀ p name s img l) (hend : END_MARK ≤ img₀.next 0) :
    END_MARK ≤ img.next 0 := by
  rwa [h.grown.next_eq h.handle.toGrip.zero_not_mem]

variable (hg : Geometry vol) (ht : TreeOk vol img₀) (hp : DirCluster vol img₀ p.1)
  (hend : END_MARK ≤ img₀.next 0) (h : Growing vol img₀ p name s img l)
include hg ht hp hend h

/-- **A call of `f_write`**, complete or out of clusters. -/
theorem fWrite_growing (buf : Bytes) :
    (fWrite (some vol) buf s).Leaves (Grows vol img₀ p name) := by
  rw [fWrite]
  apply sat_bind_ok (getFile_run s)
  by_cases hflag : s.file.flags &&& FA_WRITE = 0
  · rw [if_pos hflag]
    exact sat_deny ⟨img, l, h.shows, h.grown, h.slot, h.handle.withError _, h.current⟩
  rw [if_neg hflag]
  by_cases hempty : buf = []
  · rw [if_pos hempty]
    exact ⟨img, l, h⟩
  rw [if_neg hempty]
  have hzero : s.file.currentCluster ≠ 0 := fun h0 =>
    h.handle.toGrip.zero_not_mem (h0 ▸ h.current)
  apply sat_bind_ok (ensureCluster_skip hzero)
  -- every round keeps the cursor in the chain
  apply sat_loopM (I := fun _ t => Grows vol img₀ p name t)
  · rintro n t ⟨img₁, l₁, h₁⟩
    by_cases hmore : n < buf.length
    · have hdata := h₁.grown.storeData ht hp h₁.current
        (t.file.sectorInCluster * 512 + t.file.byteInSector)
        ((buf.drop n).take (t.file.room (buf.length - n)))
      refine (writeStep_returns hg h₁.shows h₁.handle h₁.current hmore).sat.mono ?_ ?_
      · rintro r t' ⟨rfl, img', hs', hturn⟩
        have hgrip : Grip vol (img₁.storeData t.file.currentCluster
            (t.file.sectorInCluster * 512 + t.file.byteInSector)
            ((buf.drop n).take (t.file.room (buf.length - n))))
            (t.file.wrote (t.file.room (buf.length - n))) l₁ :=
          ⟨h₁.handle.chain, h₁.handle.current, h₁.handle.sector⟩
        obtain ⟨l', hh', hc', hconf, hsame, hsub, htab⟩ :=
          hturn.handle hg (by exact h₁.first hend) hgrip h₁.current
        refine ⟨img', l', hs', ?_, ?_, hh', hc'⟩
        · rw [hsame.start]
          exact hdata.extend hconf hsub htab
        · rw [File.slot, hsame.dirSector, hsame.dirOffset]
          exact h₁.slot
      · rintro e t' ⟨hs', hfile, -⟩
        refine ⟨_, l₁, hs', ?_, ?_, ?_, ?_⟩
        · rw [hfile]
          exact hdata
        · rw [hfile]
          exact h₁.slot
        · rw [hfile]
          exact ⟨⟨h₁.handle.chain, h₁.handle.current, hg.spc_pos⟩, Nat.zero_lt_succ _⟩
        · rw [hfile]
          exact h₁.current
    · rw [writeStep, if_neg hmore]
      exact ⟨img₁, l₁, h₁⟩
  · exact ⟨img, l, h⟩

omit hend in
/-- **A call of `f_sync`.** -/
theorem fSync_growing : (fSync (some vol) s).Sat
    (fun _ s' => Grows vol img₀ p name s') fun _ _ => False := by
  obtain ⟨m, hm⟩ := ht p.1 hp
  have hvalid : vol.Valid s.file.slot.1 := h.slot ▸ hm.head_valid
  refine (fSync_sat hg h.shows hvalid).mono ?_ fun _ _ h => h
  rintro - s' (⟨-, rfl⟩ | ⟨-, hfile, -, img', hs', hwritten, hslot⟩)
  · exact ⟨img, l, h⟩
  rw [h.slot] at hwritten hslot
  have hstart : startOf (img'.slot p) = s.file.startCluster := by
    have hlt := hg.lt_end ((h.handle.toGrip.chain_of_mem h.current).head_valid)
    rw [END_MARK] at hlt
    rw [hslot, syncedEntry, startOf_storeStart _ (by omega)]
  have hbytes : ∀ k ≤ 0x0B, img'.slot p k = img.slot p k := by
    intro k hk
    rw [hslot, syncedEntry_of_lt _ _ (by omega)]
  have hnext : img'.next = img.next := hwritten.next_eq
  refine ⟨img', l, hs', ?_, ?_, ?_, ?_⟩
  · rw [hfile]
    exact h.grown.rewrite hwritten hbytes hstart
  · rw [hfile]
    exact h.slot
  · rw [hfile]
    refine ⟨⟨?_, h.handle.current, h.handle.sector⟩, h.handle.byte⟩
    simp only [Image.Chain, hnext]
    exact h.handle.chain
  · rw [hfile]
    exact h.current

/-- A step of a run. -/
theorem runWriteCall_growing {call : WriteCall} (hrun : runWriteCall vol s call = some s') :
    Grows vol img₀ p name s' := by
  cases call with
  | write buf => exact after_of_sat (fWrite_growing hg ht hp hend h buf) hrun
  | sync =>
    refine after_of_sat (P := Grows vol img₀ p name) ?_ hrun
    exact (fSync_growing hg ht hp h).mono (fun _ _ h => h) fun _ _ h => h.elim

end Steps

/-! ## Creating the file -/

/-- An 8.3 name that does not start with the mark of deleted slots. -/
def LiveName (name : Bytes) : Prop := ShortName name ∧ name.head? ≠ some 0xE5

/-- The entry of a new file is found by its name. -/
theorem newEntry_live (h : LiveName name) (e : Entry) (new : Nat) :
    LiveEntry (newEntry e name new) := by
  obtain ⟨hstart, hend⟩ := newEntry_stored h.1.storable e new
  refine ⟨?_, hend, hstart.not_deleted h.1.ne_nil h.2⟩
  rw [Hidden, newEntry_attr]
  decide

/-- Creating the file claims one free cluster. -/
theorem Created.grown (h : Created vol img new p img') (hname : LiveName name)
    (hslot : img'.slot p = newEntry (img.slot p) name new) :
    Grown vol img p name new img' [new] := by
  constructor
  · intro x hx
    exact mem_singleton.mp hx ▸ h.fresh
  · intro x hx
    rw [h.written.fat]
    exact img.setEntry_ne fun heq => hx (heq ▸ mem_cons_self)
  · intro x
    rw [h.written.fat, Image.mark, Image.high_setEntry]
  · exact fun r hr _ hi => h.written.slots r hr hi
  · rw [hslot]
    exact newEntry_live hname _ new
  · rw [hslot]
    exact (newEntry_stored hname.1.storable _ new).1
  · exact h.start

/-- The handle on the new file. -/
theorem Created.growing {d' : Disk} {flags : Nat} (hg : Geometry vol)
    (h : Created vol img new p img') (hs : Shows vol d' img') (hname : LiveName name)
    (hslot : img'.slot p = newEntry (img.slot p) name new) :
    Grows vol img p name ⟨d', newFile flags p new⟩ := by
  refine ⟨img', [new], hs, h.grown hname hslot, rfl, ?_, mem_cons_self⟩
  exact ⟨⟨.inr h.chain, .inr mem_cons_self, hg.spc_pos⟩, Nat.zero_lt_succ _⟩

/-- The directory `c` and the last component `name` of the path, the slot `p` of the new file there,
and that the path leads there as long as only this directory changes. -/
structure CreatedAt (vol : FatVolume) (img : Image) (path : Bytes) (c : Nat) (name : Bytes)
    (p : Slot) : Prop where
  live : LiveName name
  depth : ∃ m, Depth vol img c m
  misses : Misses vol img c name
  first : FirstVacant vol img c p
  steady : ∀ d' img', view vol d' = img' → AgreeBut vol img img' c →
    resolvePath vol path d' = .ok (c, name) d'

theorem CreatedAt.dirCluster (hg : Geometry vol) (h : CreatedAt vol img path c name p) :
    DirCluster vol img c := by
  obtain ⟨m, hm⟩ := h.depth
  exact (hm.dirHead hg).dirCluster

/-- **`f_open` with `FA_CREATE_NEW`** makes a new file or fails. -/
theorem fOpen_new (hg : Geometry vol) (hs : Shows vol d img) (hw : WellFormed vol img)
    (hpath : DirPath vol img path fun _ name => LiveName name) :
    (fOpen (some vol) path (FA_WRITE ||| FA_CREATE_NEW) d).Sat
      (fun file d' => ∃ c name p new img', CreatedAt vol img path c name p ∧
        file = newFile (FA_WRITE ||| FA_CREATE_NEW) p new ∧ Created vol img new p img' ∧
        Shows vol d' img' ∧ img'.slot p = newEntry (img.slot p) name new)
      fun _ _ => True := by
  have ht := hw.treeOk hg
  rw [fOpen, withVol, openVol]
  apply sat_bind
  refine (resolvePath_steady hg hs.view_eq hw hpath).mono ?_ fun _ _ _ => trivial
  rintro ⟨c, name⟩ d₁ ⟨rfl, hname, hdepth, hsteady⟩
  have hc : DirCluster vol img c := by
    obtain ⟨m, hm⟩ := hdepth
    exact (hm.dirHead hg).dirCluster
  apply sat_bind
  refine (findEntryInDir_sat hg hs.view_eq ht hc name).mono ?_ fun _ _ _ => trivial
  rintro r d₂ ⟨rfl, -, hmiss⟩
  cases r with
  | some q =>
    simp only [openExisting]
    rw [if_pos (by decide)]
    trivial
  | none =>
    refine (openMissing_returns hg hs ht hc name).sat.mono ?_ fun _ _ _ => trivial
    rintro file d' ⟨new, p, img', rfl, hcreated, hs', hfirst, hslot⟩
    exact ⟨c, name, p, new, img', ⟨hname, hdepth, hmiss rfl, hfirst, hsteady⟩, rfl, hcreated, hs',
      hslot⟩

/-! ## Removing the file -/

/-- A lookup that finds nothing passes all slots before the first vacant one. -/
theorem skip_of_missed {pre rest : List Slot} (hscan : scanDir img name (pre ++ rest) = some none)
    (hused : ∀ q ∈ pre, ¬ Vacant (img.slot q)) :
    ∀ q ∈ pre, checkSlot (img.slot q) name = .skip := by
  induction pre with
  | nil => exact fun q hq => absurd hq not_mem_nil
  | cons r rs ih =>
    rw [cons_append, scanDir] at hscan
    have hskip : checkSlot (img.slot r) name = .skip := by
      cases hr : checkSlot (img.slot r) name with
      | skip => rfl
      | stop => exact absurd (.inl (marker_of_stop hr)) (hused r mem_cons_self)
      | hit =>
        rw [hr] at hscan
        cases hscan
      | panic =>
        rw [hr] at hscan
        cases hscan
    rw [hskip] at hscan
    intro q hq
    rcases mem_cons.mp hq with rfl | hq
    · exact hskip
    · exact ih hscan (fun q hq => hused q (mem_cons_of_mem _ hq)) q hq

/-- **The lookup finds the new file.** -/
theorem Grown.lookup (hg : Geometry vol) (ht : TreeOk vol img₀) (hv : view vol d = img)
    (hc : DirCluster vol img₀ c) (hat : CreatedAt vol img₀ path c name p)
    (h : Grown vol img₀ p name start img l) : vol.findEntryInDir c name d = .ok (some p) d := by
  obtain ⟨m, pre, post, hm, hslots, hused, hvacant⟩ := hat.first
  obtain ⟨m', hm', hscan⟩ := hat.misses
  obtain rfl := hm.unique hg.not_stop hm'
  rw [hslots] at hscan
  have hskip := skip_of_missed hscan hused
  have hhit : checkSlot (img.slot p) name = .hit := by
    rw [checkSlot_eq hat.live.1.ne_nil h.named.zero_not_mem, if_neg h.live.1, if_neg h.live.2.1,
      if_pos ⟨h.live, h.named⟩]
  rw [findEntryInDir_eq hg hv (h.dir_chain ht hc hm), hslots, scanDir_hit ?_ hhit]
  · rfl
  · intro q hq
    obtain ⟨hq1, hq2⟩ := mem_dirSlots.mp (hslots ▸ mem_append_left _ hq)
    rw [h.slots q ?_ (hc.of_chain hm _ hq1) hq2]
    · exact hskip q hq
    · rintro rfl
      exact hused q hq hvacant

/-- Only the directory of the new file differs. -/
theorem Grown.agreeBut (hg : Geometry vol) (hw : WellFormed vol img₀)
    (hat : CreatedAt vol img₀ path c name p) (h : Grown vol img₀ p name start img l) :
    AgreeBut vol img₀ img c := by
  intro b k hb hbc m hm
  have hdir := (hb.dirHead hg).dirCluster
  refine ⟨h.dir_chain (hw.treeOk hg) hdir hm, ?_⟩
  intro q hq
  obtain ⟨hq1, hq2⟩ := mem_dirSlots.mp hq
  refine h.slots q ?_ (hdir.of_chain hm _ hq1) hq2
  rintro rfl
  obtain ⟨n, hn⟩ := hat.depth
  obtain ⟨m', pre, post, hm', hslots, -, -⟩ := hat.first
  have hq' := (mem_dirSlots.mp (hslots ▸ mem_append_right pre mem_cons_self)).1
  exact (hb.dirHead hg).disjoint hw (hn.dirHead hg) hbc hm hm' _ hq1 hq'

/-- **`f_unlink` gives back every cluster.** -/
theorem Grown.unlink (hg : Geometry vol) (hw : WellFormed vol img₀) (hs : Shows vol d img)
    (hat : CreatedAt vol img₀ path c name p) (h : Grown vol img₀ p name start img l)
    (hl : img.Chain vol start l) :
    ∃ d' img', fUnlink (some vol) path d = .ok () d' ∧ Shows vol d' img' ∧ img'.fat = img₀.fat := by
  have ht := hw.treeOk hg
  have hc := hat.dirCluster hg
  have hpath := hat.steady d img hs.view_eq (h.agreeBut hg hw hat)
  have hfind := h.lookup hg ht hs.view_eq hc hat
  obtain ⟨m, hm⟩ := ht p.1 (hat.first.place hc)
  have hchain : img.Chain vol (startOf (img.slot p)) l := h.entry.symm ▸ hl
  obtain ⟨d', img', hrun, hs', hun⟩ :=
    unlinkAt_ok hg hs hm.head_valid hat.first.index (.inr ⟨l, hchain⟩)
  refine ⟨d', img', ?_, hs', ?_⟩
  · rw [fUnlink, withVol, Op.bind_ok hpath]
    simp only [if_neg hat.live.1.ne_nil]
    rw [withEntry_some _ hfind]
    exact hrun
  · -- a released entry is 0 in its 28 bits, as it was before the file
    have hholds : ∀ x, Owner.Holds vol img (some p) x ↔ x ∈ l := by
      intro x
      constructor
      · rintro ⟨m, hm, hx⟩
        exact hm.unique hg.not_stop hchain ▸ hx
      · exact fun hx => ⟨l, hchain, hx⟩
    funext x
    by_cases hx : x ∈ l
    · have hfree := hun.freed x ((hholds x).mpr hx)
      have hhigh := (hun.high x).trans (h.high x)
      have hclaimed := h.claimed x hx
      rw [Image.next] at hfree hclaimed
      omega
    · rw [hun.table x fun hh => hx ((hholds x).mp hh), h.table x hx]

/-! ## `f_getfree` -/

theorem countFreeFrom_shows (hg : Geometry vol) (hv : view vol d = img) {count n : Nat}
    (hn : c + n ≤ vol.maxCluster) (hcount : count + n < 2 ^ 32) :
    vol.countFreeFrom c count n d = .ok (count + img.freeCount c n) d := by
  refine ((readsTable_disk vol d).countFreeFrom_iff hcount).mpr ⟨rfl, fun _ _ _ => rfl, ?_⟩
  rw [Image.freeCount]
  congr 1
  apply countP_congr
  intro x hx
  rw [mem_range'_1] at hx
  rw [nextOn_eq hg hv (by omega), decide_eq_true_iff, beq_iff_eq, Option.some_inj]

/-- **`f_getfree`** counts the free clusters. -/
theorem fGetfree_shows (hg : Geometry vol) (hv : view vol d = img) : fGetfree (some vol) d =
      .ok (img.freeCount 2 (vol.maxCluster - 2), vol.maxCluster - 2) d := by
  have hlow := hg.root_valid
  have hmax := hg.clusters_le
  have htwo : 2 ≤ vol.maxCluster := (hlow.1.trans_lt hlow.2).le
  rw [END_MARK] at hmax
  have hcount : vol.countFreeFrom 2 0 (vol.maxCluster - 2) d =
      .ok (0 + img.freeCount 2 (vol.maxCluster - 2)) d :=
    countFreeFrom_shows hg hv (by omega) (by omega)
  rw [Nat.zero_add] at hcount
  rw [fGetfree, withVol, countFreeClusters, Op.bind_ok hcount,
    show (vol.maxCluster + (2 ^ 32 - 2)) % 2 ^ 32 = vol.maxCluster - 2 by omega]
  rfl

/-! ## The whole run -/

/-- **Create, write, unlink gives every cluster back.** On a well-formed volume, when every parent
component of the path selects a subdirectory with a cluster and the last component is an 8.3 name, a
file that `f_open` created is removed by `f_unlink` after any calls of `f_write` and `f_sync`. Every
copy of the table is then as it was before, and `f_getfree` reports the same numbers. -/
theorem create_write_unlink (vol : FatVolume) (d₀ d₁ : Disk) (path : Bytes) (file : File)
    (calls : List WriteCall) (s : OpenFile Disk) (hg : Geometry vol) (hm : Mirrored vol d₀)
    (hw : WellFormed vol (view vol d₀))
    (hpath : DirPath vol (view vol d₀) path fun _ name => LiveName name)
    (hopen : fOpen (some vol) path (FA_WRITE ||| FA_CREATE_NEW) d₀ = .ok file d₁)
    (hrun : runSteps (runWriteCall vol) ⟨d₁, file⟩ calls = some s) :
    ∃ d₂ r, fUnlink (some vol) path s.dev = .ok () d₂ ∧
      (∀ k < vol.numFats, ∀ x < vol.maxCluster, rawEntry vol d₂ k x = rawEntry vol d₀ k x) ∧
      fGetfree (some vol) d₀ = .ok r d₀ ∧ fGetfree (some vol) d₂ = .ok r d₂ := by
  have hs₀ := hm.shows
  have ht := hw.treeOk hg
  obtain ⟨c, name, p, new, img', hat, hfile, hcreated, hs₁, hslot⟩ :=
    (fOpen_new hg hs₀ hw hpath).of_ok hopen
  have hgrows : Grows vol (view vol d₀) p name ⟨d₁, file⟩ := by
    rw [hfile]
    exact hcreated.growing hg hs₁ hat.live hslot
  obtain ⟨m, hdepth⟩ := hat.depth
  have hp := hat.first.place (hdepth.dirHead hg).dirCluster
  have hgrows' : Grows vol (view vol d₀) p name s := by
    have hreach : Reach (fun t : OpenFile Disk => t = ⟨d₁, file⟩) (fun _ _ => True)
        (fun t call t' => runWriteCall vol t call = some t') s :=
      .of_run (.init rfl) (fun _ _ _ => trivial) hrun
    refine Reach.invariant (P := Grows vol (view vol d₀) p name) ?_ ?_ hreach
    · rintro t rfl
      exact hgrows
    · rintro t call t' ⟨img, l, h⟩ - hstep
      exact runWriteCall_growing hg ht hp hw.first h hstep
  obtain ⟨img, l, h⟩ := hgrows'
  obtain ⟨d₂, img₂, hunlink, hs₂, hfat⟩ :=
    h.grown.unlink hg hw h.shows hat (h.handle.toGrip.chain_of_mem h.current)
  refine ⟨d₂, _, hunlink, ?_, fGetfree_shows hg rfl, ?_⟩
  · intro k hk x hx
    rw [hs₂.rawEntry_eq hg hk hx, hs₀.rawEntry_eq hg hk hx, hfat]
  · have hnext : img₂.next = (view vol d₀).next := by
      funext x
      rw [Image.next, Image.next, hfat]
    rw [fGetfree_shows hg hs₂.view_eq, Image.freeCount, Image.freeCount, hnext]

/-! ## On the second sample volume -/

/-- The name `X`. -/
theorem liveName_X : LiveName [0x58] := by
  have hplain : Plain [0x58] := by
    intro b hb
    obtain rfl := mem_singleton.mp hb
    decide
  exact ⟨.base hplain (by decide) (by decide), by decide⟩

/-- The file `/D/X`, with more than a cluster written to it. -/
theorem create_write_unlink_second : ∃ file d₁ s d₂,
    fOpen (some tinyVol) [0x2F, 0x44, 0x2F, 0x58] (FA_WRITE ||| FA_CREATE_NEW) secondDisk =
      .ok file d₁ ∧
    runSteps (runWriteCall tinyVol) ⟨d₁, file⟩ [.write (replicate 600 0x58), .sync] = some s ∧
    fUnlink (some tinyVol) [0x2F, 0x44, 0x2F, 0x58] s.dev = .ok () d₂ ∧
    ∀ k < 1, ∀ x < 128, rawEntry tinyVol d₂ k x = rawEntry tinyVol secondDisk k x := by
  have hroot : secondImage.Chain tinyVol 2 [2] := second_chain (by decide)
  have hpath : DirPath tinyVol secondImage [0x2F, 0x44, 0x2F, 0x58] fun _ name =>
      LiveName name := by
    intro p hp
    obtain rfl := hp.eq_of_scan (p := (2, 2)) tiny_geometry hroot (by decide +kernel)
    exact ⟨by decide +kernel, by decide +kernel, liveName_X⟩
  -- the file can be opened and written to
  obtain ⟨file, d₁, hopen, s, hcalls, -⟩ : ∃ file d₁, fOpen (some tinyVol) [0x2F, 0x44, 0x2F, 0x58]
      (FA_WRITE ||| FA_CREATE_NEW) secondDisk = .ok file d₁ ∧ ∃ s, runSteps (runWriteCall tinyVol)
        ⟨d₁, file⟩ [.write (replicate 600 0x58), .sync] = some s ∧ s.file.size = 600 := by
    decide +kernel
  obtain ⟨d₂, -, hunlink, hfat, -, -⟩ := create_write_unlink tinyVol secondDisk d₁ _ file _ s
    tiny_geometry (tiny_mirrored _) second_wellFormed hpath hopen hcalls
  exact ⟨file, d₁, s, d₂, hopen, hcalls, hunlink, hfat⟩

/-- The directory `A` cannot be reached, because the lookup returns the empty file `AB`. `f_open` of
`/A/X` then makes an entry in cluster 0, `f_unlink` does not find it, and the cluster is lost. -/
theorem unreachable_file_leaks :
    Geometry tinyVol ∧ Mirrored tinyVol secondDisk ∧ WellFormed tinyVol secondImage ∧
    namedSlot secondImage [0x41] (tinyVol.dirSlots [2]) = some (2, 1) ∧
    Subdirectory (secondImage.slot (2, 1)) ∧ LiveName [0x58] ∧
    ∃ file d₁ d₂,
      fOpen (some tinyVol) [0x2F, 0x41, 0x2F, 0x58] (FA_WRITE ||| FA_CREATE_NEW) secondDisk =
        .ok file d₁ ∧
      fUnlink (some tinyVol) [0x2F, 0x41, 0x2F, 0x58] d₁ = .err .noFile d₂ ∧
      rawEntry tinyVol secondDisk 0 6 = 0 ∧ rawEntry tinyVol d₂ 0 6 = 0x0FFFFFFF := by
  obtain ⟨file, d₁, hopen, d₂, hunlink, hlost⟩ : ∃ file d₁, fOpen (some tinyVol)
      [0x2F, 0x41, 0x2F, 0x58] (FA_WRITE ||| FA_CREATE_NEW) secondDisk = .ok file d₁ ∧ ∃ d₂,
      fUnlink (some tinyVol) [0x2F, 0x41, 0x2F, 0x58] d₁ = .err .noFile d₂ ∧
      rawEntry tinyVol d₂ 0 6 = 0x0FFFFFFF := by decide +kernel
  exact ⟨tiny_geometry, tiny_mirrored _, second_wellFormed, by decide +kernel, by decide +kernel,
    liveName_X, file, d₁, d₂, hopen, hunlink, by decide +kernel, hlost⟩

end PlanckOS.Fat32
