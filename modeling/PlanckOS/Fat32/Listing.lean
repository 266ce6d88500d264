import PlanckOS.Fat32.Changes
import PlanckOS.Fat32.Enumerate
import PlanckOS.Fat32.Paths
import Mathlib.Data.List.TakeWhile

/-!
# Listing directories

Calling `f_readdir` until it returns false yields the names of the live entries before the end
marker (`entryNames`), in their order; `listDir_spec` states this for the handle of `f_opendir`.

`resolve_path` returns the directory that holds the last component of a path. `f_opendir` and
`f_chdir` take this directory for the one that the path names, so they work on its parent; with a
trailing slash the last component is empty, and `f_stat` takes this for the root.
`directory_path_parts` says, part by part, when the answers are nevertheless right.
-/

set_option autoImplicit false

namespace PlanckOS.Fat32

open Lib.Fallible FatVolume List

variable {vol : FatVolume} {d : Disk} {img : Image} {c : Nat} {l : List Nat} {path name : Bytes}
  {p : Slot}

/-! ## The names of a directory -/

/-- The names of the live entries among the slots, up to the first end marker. -/
def entryNames (img : Image) (slots : List Slot) : List Bytes :=
  (((slots.map img.slot).takeWhile fun e => ¬ EndMarker e).filter fun e => LiveEntry e).filterMap
    readDirEntryName

/-- These are the names that `f_readdir` enumerates. -/
theorem entryNames_eq (img : Image) (slots : List Slot) :
    entryNames img slots = slotNames (slots.map img.slot) := by
  have hkeep : ∀ e : Entry, e 0 ≠ 0 →
      (LiveEntry e ↔ e 0 ≠ 0xE5 ∧ attrOf e &&& ATTR_VOLUME = 0) := by
    intro e h0
    have hlfn : attrOf e = ATTR_LFN → attrOf e &&& ATTR_VOLUME ≠ 0 := by
      intro h
      rw [h]
      decide
    rw [LiveEntry, Hidden, EndMarker]
    tauto
  rw [entryNames, slotNames]
  congr 1
  refine filter_congr fun e he => ?_
  have hpassed := mem_takeWhile_imp he
  have h0 : e 0 ≠ 0 := of_decide_eq_true hpassed
  exact decide_eq_decide.mpr (hkeep e h0)

theorem slotsPerCluster_le (hg : Geometry vol) : vol.slotsPerCluster ≤ 2048 := by
  have hspc := hg.spc_le
  rw [slotsPerCluster, clusterSize_eq, DIR_SIZE]
  omega

theorem slotsPerCluster_pos (hg : Geometry vol) : 0 < vol.slotsPerCluster := by
  have hspc := hg.spc_pos
  rw [slotsPerCluster, clusterSize_eq, DIR_SIZE]
  omega

/-- The slots before a handle are slots of its directory. -/
theorem dirOn_subset {dir : Dir} {ps : List Slot} (h : DirOn vol d c dir ps)
    (hl : vol.ChainOn d c l) : ps ⊆ vol.dirSlots l := by
  cases h with
  | ended _ => exact nil_subset _
  | @within front rest _ hl' _ =>
    obtain rfl := hl'.unique (fun x hx => Nat.not_le.mpr hx) hl
    have hsplit : vol.dirSlots (front ++ dir.currentCluster :: rest) =
        vol.dirSlots front ++ (vol.clusterSlots dir.currentCluster ++ vol.dirSlots rest) :=
      flatMap_append
    rw [hsplit]
    intro q hq
    rcases mem_append.mp hq with hq | hq
    · exact mem_append_right _ (mem_append_left _ (mem_of_mem_drop hq))
    · exact mem_append_right _ (mem_append_right _ hq)

/-- **Reading a directory to its end** with the handle of `f_opendir` yields the names of its live
entries. -/
theorem listDir_spec (hg : Geometry vol) (hv : view vol d = img) (hl : img.Chain vol c l) :
    ∃ dir', listDir (some vol) ⟨d, ⟨c, c, 0, 0, false, replicate 11 0, 0⟩⟩ =
      .ok (entryNames img (vol.dirSlots l)) ⟨d, dir'⟩ := by
  have hat : DirOn vol d c ⟨c, c, 0, 0, false, replicate 11 0, 0⟩ (vol.dirSlots l) :=
    .first (hl.on hg hv) rfl rfl rfl
  obtain ⟨dir', hrun⟩ := listDir_on (slotsPerCluster_pos hg)
    ((slotsPerCluster_le hg).trans_lt (by norm_num)) hat fun _ _ => Option.some_ne_none _
  -- the slots lie in clusters of the volume
  have hslot : (vol.dirSlots l).map (vol.imageOn d).slot = (vol.dirSlots l).map img.slot := by
    refine map_congr_left fun p hp => ?_
    have hvalid := hl.valid_of_mem (mem_dirSlots.mp hp).1
    exact congrArg (entryAt · p.2) (clusterOn_eq hg hv hvalid)
  refine ⟨dir', hrun.trans ?_⟩
  rw [Dir.selected, hslot, entryNames_eq]
  exact congrArg (Outcome.ok · _) (filter_eq_self.mpr fun _ _ => rfl)

/-! ## Where a path leads -/

/-- The components lead from the directory that starts at one cluster to another one, along the
subdirectories that the lookups select. -/
inductive Leads (vol : FatVolume) (img : Image) : Nat → List Bytes → Nat → Prop
  | nil (c : Nat) : Leads vol img c [] c
  | skip {c c' : Nat} {rest : List Bytes} (h : Leads vol img c rest c') :
      Leads vol img c ([] :: rest) c'
  | step {c c' : Nat} {p : Slot} {component : Bytes} {rest : List Bytes}
      (hne : component ≠ []) (hp : Selects vol img c component p) (hd : Subdirectory (img.slot p))
      (h : Leads vol img (startOf (img.slot p)) rest c') : Leads vol img c (component :: rest) c'

/-- The path leads to the directory at `c`, and `name` is its last component. -/
def PathTo (vol : FatVolume) (img : Image) (path : Bytes) (c : Nat) (name : Bytes) : Prop :=
  ∃ parents, pathComponents path = parents ++ [name] ∧ Leads vol img vol.rootCluster parents c

section Paths

variable {c' c'' : Nat}
  {xs ys : List Bytes}

theorem Leads.append (h : Leads vol img c xs c') (h' : Leads vol img c' ys c'') :
    Leads vol img c (xs ++ ys) c'' := by
  induction h with
  | nil _ => exact h'
  | skip _ ih => exact .skip (ih h')
  | step hne hp hd _ ih => exact .step hne hp hd (ih h')

section

variable (hg : Geometry vol) (hv : view vol d = img)
include hg hv

/-- The lookup of what is selected. -/
theorem Selects.find (h : Selects vol img c name p) :
    vol.findEntryInDir c name d = .ok (some p) d ∧ vol.Valid p.1 := by
  obtain ⟨l, pre, post, hl, hslots, hskip, hhit⟩ := h
  have hmem := mem_iff_append.mpr ⟨_, _, hslots⟩
  refine ⟨?_, hl.valid_of_mem (mem_dirSlots.mp hmem).1⟩
  rw [findEntryInDir_eq hg hv hl, hslots, scanDir_hit hskip hhit]
  rfl

theorem resolveFrom_leads (h : Leads vol img c xs c') (name : Bytes) :
    resolveFrom vol c (xs ++ [name]) d = .ok (c', name) d := by
  induction h with
  | nil c => rfl
  | skip _ ih =>
    rw [cons_append, resolveFrom_nil_cons (by simp)]
    exact ih
  | step hne hp _ _ ih =>
    obtain ⟨hfind, hvalid⟩ := hp.find hg hv
    rw [cons_append, resolveFrom_found hne (by simp) hfind (readEntryData_shows hg hv hvalid _)]
    exact ih

/-- **`resolve_path` follows the path.** -/
theorem PathTo.resolve (h : PathTo vol img path c name) :
    resolvePath vol path d = .ok (c, name) d := by
  obtain ⟨parents, hcomp, hleads⟩ := h
  rw [resolvePath]
  by_cases hempty : path.dropWhile (· == 0x2F) = []
  · rw [if_pos hempty]
    rw [pathComponents, hempty, splitOn_nil] at hcomp
    obtain ⟨rfl, hname⟩ := append_eq_singleton_iff.mp hcomp.symm |>.resolve_right (by simp)
    obtain rfl := singleton_inj.mp hname
    cases hleads
    rfl
  · rw [if_neg hempty, hcomp]
    exact resolveFrom_leads hg hv hleads name

end

/-- The path of an entry of the directory that the path names; without a name it is the directory
itself. -/
theorem PathTo.child (h : PathTo vol img path c name) (hne : name ≠ [])
    (hp : Selects vol img c name p)
    (hd : Subdirectory (img.slot p)) {entry : Bytes} (hentry : (0x2F : UInt8) ∉ entry) :
    PathTo vol img (path ++ 0x2F :: entry) (startOf (img.slot p)) entry := by
  obtain ⟨parents, hcomp, hleads⟩ := h
  have hnonempty : path.dropWhile (· == 0x2F) ≠ [] := by
    intro hempty
    rw [pathComponents, hempty, splitOn_nil] at hcomp
    obtain ⟨rfl, hname⟩ := append_eq_singleton_iff.mp hcomp.symm |>.resolve_right (by simp)
    exact hne (singleton_inj.mp hname)
  refine ⟨parents ++ [name], ?_, hleads.append (.step hne hp hd (.nil _))⟩
  rw [pathComponents, dropWhile_append, if_neg (by simpa using hnonempty),
    splitOn_append_cons_self, splitOn_eq_singleton hentry, ← pathComponents, hcomp]

theorem Leads.valid (h : Leads vol img c xs c') (hv : vol.Valid c') : vol.Valid c := by
  induction h with
  | nil _ => exact hv
  | skip _ ih => exact ih hv
  | step _ hp _ _ _ =>
    obtain ⟨l, -, -, hl, -⟩ := hp
    exact hl.head_valid

/-- Every component goes one step down. -/
theorem Leads.depth (h : Leads vol img c xs c') (hv : vol.Valid c') {n : Nat}
    (hd : Depth vol img c n) : ∃ m, Depth vol img c' m := by
  induction h generalizing n with
  | nil _ => exact ⟨n, hd⟩
  | skip _ ih => exact ih hv hd
  | step _ hp hs hrest ih =>
    obtain ⟨l, pre, post, hl, hslots, -⟩ := hp
    exact ih hv (.child hd hl (mem_iff_append.mpr ⟨_, _, hslots⟩) hs
      (hrest.valid hv))

end Paths

/-! ## Directory paths -/

/-- `f_opendir` of the path, and `f_readdir` until it returns false, yield the names. -/
def ListsNames (vol : FatVolume) (d : Disk) (path : Bytes) (names : List Bytes) : Prop :=
  ∃ dir d' s, fOpendir (some vol) path d = .ok dir d' ∧ listDir (some vol) ⟨d', dir⟩ = .ok names s

/-- `f_stat` returns the same attributes and start cluster for both paths. -/
def SameStat (vol : FatVolume) (d : Disk) (path path' : Bytes) : Prop :=
  ∃ info info' d₁ d₂, fStat (some vol) path d = .ok info d₁ ∧
    fStat (some vol) path' d = .ok info' d₂ ∧ info'.attributes = info.attributes ∧
    info'.startCluster = info.startCluster

/-- `f_chdir` of the path sets `CWD_CLUSTER` to `c`. -/
def ChdirTo (vol : FatVolume) (d : Disk) (path : Bytes) (c : Nat) : Prop :=
  ∀ cluster cwd, ∃ s, fChdir (some vol) path ⟨d, cluster, cwd⟩ = .ok () s ∧ s.cluster = c

section

variable (hg : Geometry vol) (hv : view vol d = img)
include hg hv

/-- `f_opendir` opens the directory that holds the last component. -/
theorem listsNames_iff (h : PathTo vol img path c name) (hl : img.Chain vol c l)
    (names : List Bytes) :
    ListsNames vol d path names ↔ entryNames img (vol.dirSlots l) = names := by
  have hopen : fOpendir (some vol) path d = .ok ⟨c, c, 0, 0, false, replicate 11 0, 0⟩ d := by
    rw [fOpendir, withVol, Op.bind_ok (h.resolve hg hv)]
    rfl
  obtain ⟨dir', hlist⟩ := listDir_spec hg hv hl
  constructor
  · rintro ⟨dir, d', s, hdir, hnames⟩
    obtain ⟨rfl, rfl⟩ := Outcome.ok.inj (hopen.symm.trans hdir)
    exact (Outcome.ok.inj (hlist.symm.trans hnames)).1
  · rintro rfl
    exact ⟨_, _, _, hopen, hlist⟩

/-- `f_chdir` does the same. -/
theorem chdirTo_iff (h : PathTo vol img path c name) (c' : Nat) :
    ChdirTo vol d path c' ↔ c = c' := by
  have hrun : ∀ cluster cwd, (fChdir (some vol) path : Op (WorkDir Disk) FError Unit)
      ⟨d, cluster, cwd⟩ = .ok () ⟨d, c, cwdPath path⟩ := by
    intro cluster cwd
    rw [fChdir, withVol, h.resolve hg hv]
  constructor
  · intro hto
    obtain ⟨s, hs, hc⟩ := hto 0 fun _ => 0
    rw [hrun] at hs
    obtain ⟨-, rfl⟩ := Outcome.ok.inj hs
    exact hc
  · rintro rfl cluster cwd
    exact ⟨_, hrun cluster cwd, rfl⟩

/-- `f_stat` returns what stands in the slot that was found. -/
theorem fStat_found (hpath : resolvePath vol path d = .ok (c, name) d) (hne : name ≠ [])
    (hfind : vol.findEntryInDir c name d = .ok (some p) d) (hvalid : vol.Valid p.1) :
    fStat (some vol) path d = .ok ⟨FatVolume.sizeOf (img.slot p),
      attrOf (img.slot p), startOf (img.slot p), Buf.le16 (img.slot p) 0x16,
      Buf.le16 (img.slot p) 0x18⟩ d := by
  rw [fStat, withVol, Op.bind_ok hpath]
  simp only [if_neg hne]
  rw [withEntry_some _ hfind, statAt, Op.bind_ok (readEntryData_shows hg hv hvalid p.2)]
  rfl

theorem fStat_selected (h : PathTo vol img path c name) (hne : name ≠ [])
    (hp : Selects vol img c name p) : ∃ info,
      fStat (some vol) path d = .ok info d ∧
      info.attributes = attrOf (img.slot p) ∧ info.startCluster = startOf (img.slot p) := by
  obtain ⟨hfind, hvalid⟩ := hp.find hg hv
  exact ⟨_, fStat_found hg hv (h.resolve hg hv) hne hfind hvalid, rfl, rfl⟩

theorem fStat_slash (h : PathTo vol img path c []) : fStat (some vol) path d =
      .ok ⟨0, ATTR_DIRECTORY, vol.rootCluster, 0, 0⟩ d := by
  rw [fStat, withVol, Op.bind_ok (h.resolve hg hv)]
  rfl

end

/-- A name that is not there. -/
theorem fStat_missing (hpath : resolvePath vol path d = .ok (c, name) d)
    (hne : name ≠ []) (hfind : vol.findEntryInDir c name d = .ok none d) :
    fStat (some vol) path d = .err .noFile d := by
  rw [fStat, withVol, Op.bind_ok hpath]
  simp only [if_neg hne]
  exact withEntry_none _ hfind

/-- **What a directory path denotes.** The path leads to the slot `p` of a subdirectory in the
directory at `c`. With a trailing slash its entries are listed. Without one those of the parent are,
`f_chdir` goes to the parent, and `f_stat` of the path with a slash answers for the root. On a
well-formed volume the last two are therefore always wrong. -/
theorem directory_path_parts (vol : FatVolume) (d : Disk) (path name : Bytes) (c : Nat) (p : Slot)
    (l l' : List Nat) (hg : Geometry vol) (hpath : PathTo vol (view vol d) path c name)
    (hne : name ≠ []) (hp : Selects vol (view vol d) c name p)
    (hdir : Subdirectory ((view vol d).slot p)) (hl : (view vol d).Chain vol c l)
    (hl' : (view vol d).Chain vol (startOf ((view vol d).slot p)) l') :
    ListsNames vol d (path ++ [0x2F]) (entryNames (view vol d) (vol.dirSlots l')) ∧
    (ListsNames vol d path (entryNames (view vol d) (vol.dirSlots l')) ↔
      entryNames (view vol d) (vol.dirSlots l) = entryNames (view vol d) (vol.dirSlots l')) ∧
    (SameStat vol d path (path ++ [0x2F]) ↔ attrOf ((view vol d).slot p) = ATTR_DIRECTORY ∧
      startOf ((view vol d).slot p) = vol.rootCluster) ∧
    (ChdirTo vol d path (startOf ((view vol d).slot p)) ↔ c = startOf ((view vol d).slot p)) ∧
    (WellFormed vol (view vol d) → startOf ((view vol d).slot p) ≠ vol.rootCluster ∧
      c ≠ startOf ((view vol d).slot p)) := by
  have hslash : PathTo vol (view vol d) (path ++ [0x2F]) (startOf ((view vol d).slot p)) [] :=
    hpath.child hne hp hdir not_mem_nil
  refine ⟨(listsNames_iff hg rfl hslash hl' _).mpr rfl, listsNames_iff hg rfl hpath hl _, ?_,
    chdirTo_iff hg rfl hpath _, ?_⟩
  · obtain ⟨info, hstat, hattr, hstart⟩ := fStat_selected hg rfl hpath hne hp
    have hroot := fStat_slash hg rfl hslash
    constructor
    · rintro ⟨i, i', d₁, d₂, hi, hi', ha, hs⟩
      obtain ⟨rfl, -⟩ := Outcome.ok.inj (hstat.symm.trans hi)
      obtain ⟨rfl, -⟩ := Outcome.ok.inj (hroot.symm.trans hi')
      exact ⟨hattr.symm.trans ha.symm, hstart.symm.trans hs.symm⟩
    · rintro ⟨ha, hs⟩
      exact ⟨info, _, d, d, hstat, hroot, ha.symm.trans hattr.symm, hs.symm.trans hstart.symm⟩
  · -- the directory is one step further down than its parent
    intro hw
    obtain ⟨parents, -, hleads⟩ := hpath
    obtain ⟨n, hn⟩ := hleads.depth hl.head_valid .root
    obtain ⟨m, pre, post, hm, hslots, -⟩ := hp
    have hchild := Depth.child hn hm (mem_iff_append.mpr ⟨_, _, hslots⟩) hdir
      hl'.head_valid
    constructor
    · intro heq
      rw [heq] at hchild
      exact absurd (hchild.unique hg hw .root) (Nat.succ_ne_zero n)
    · intro heq
      rw [← heq] at hchild
      exact absurd (hchild.unique hg hw hn) (Nat.succ_ne_self n)

/-! ## On the second sample volume -/

/-- The path `/D` of the second sample volume. -/
theorem second_path_D : PathTo tinyVol secondImage [0x2F, 0x44] 2 [0x44] ∧
    Selects tinyVol secondImage 2 [0x44] (2, 2) ∧ Subdirectory (secondImage.slot (2, 2)) ∧
    startOf (secondImage.slot (2, 2)) = 4 := by
  have hroot : secondImage.Chain tinyVol 2 [2] := second_chain (by decide)
  have hscan : scanDir secondImage [0x44] (tinyVol.dirSlots [2]) = some (some (2, 2)) := by
    decide +kernel
  obtain ⟨pre, post, hslots, hskip, hhit⟩ := scanDir_found hscan
  exact ⟨⟨[], rfl, .nil 2⟩, ⟨[2], pre, post, hroot, hslots, hskip, hhit⟩, by decide +kernel,
    by decide +kernel⟩

/-- The entries of `/D` are listed for `/D/`. -/
theorem directory_path_parts_second : ListsNames tinyVol secondDisk [0x2F, 0x44, 0x2F]
    (entryNames secondImage (tinyVol.dirSlots [4])) := by
  obtain ⟨hpath, hsel, hdir, hstart⟩ := second_path_D
  have hroot : secondImage.Chain tinyVol 2 [2] := second_chain (by decide)
  have hsub : secondImage.Chain tinyVol (startOf (secondImage.slot (2, 2))) [4] := by
    decide +kernel
  exact (directory_path_parts tinyVol secondDisk [0x2F, 0x44] [0x44] 2 (2, 2) [2] [4]
    tiny_geometry hpath (by decide) hsel hdir hroot hsub).1

/-- A name of one byte, as `f_readdir` returns it. -/
def nameOf (bytes : Bytes) : Bytes := bytes ++ replicate (13 - bytes.length) 0

/-- The directory `/D` has the entries `.`, `..` and `G`. `f_opendir("/D")` lists the entries `AB`,
`A` and `D` of the root, `f_stat("/D/")` returns start cluster 2 instead of 4, and `f_chdir("/D")`
goes to cluster 2. -/
theorem parent_listed : Geometry tinyVol ∧ WellFormed tinyVol secondImage ∧
    namedSlot secondImage [0x44] (tinyVol.dirSlots [2]) = some (2, 2) ∧
    Subdirectory (secondImage.slot (2, 2)) ∧ startOf (secondImage.slot (2, 2)) = 4 ∧
    secondImage.Chain tinyVol 4 [4] ∧
    entryNames secondImage (tinyVol.dirSlots [4]) =
      [nameOf [0x2E], nameOf [0x2E, 0x2E], nameOf [0x47]] ∧
    ListsNames tinyVol secondDisk [0x2F, 0x44]
      [nameOf [0x41, 0x42], nameOf [0x41], nameOf [0x44]] ∧
    ¬ ListsNames tinyVol secondDisk [0x2F, 0x44]
      (entryNames secondImage (tinyVol.dirSlots [4])) ∧
    ¬ SameStat tinyVol secondDisk [0x2F, 0x44] [0x2F, 0x44, 0x2F] ∧
    ¬ ChdirTo tinyVol secondDisk [0x2F, 0x44] 4 := by
  obtain ⟨hpath, hsel, hdir, hstart⟩ := second_path_D
  have hroot : secondImage.Chain tinyVol 2 [2] := second_chain (by decide)
  have hslash : PathTo tinyVol secondImage [0x2F, 0x44, 0x2F]
      (startOf (secondImage.slot (2, 2))) [] := hpath.child (by decide) hsel hdir not_mem_nil
  refine ⟨tiny_geometry, second_wellFormed, by decide +kernel, hdir, hstart,
    by decide +kernel, by decide +kernel, ?_, ?_, ?_, ?_⟩
  · exact (listsNames_iff tiny_geometry rfl hpath hroot _).mpr (by decide +kernel)
  · rw [listsNames_iff tiny_geometry rfl hpath hroot]
    decide +kernel
  · rintro ⟨i, i', d₁, d₂, hi, hi', -, hs⟩
    obtain ⟨info, hinfo, -, hstart'⟩ := fStat_selected tiny_geometry rfl hpath (by decide) hsel
    obtain ⟨rfl, -⟩ := Outcome.ok.inj (hinfo.symm.trans hi)
    obtain ⟨rfl, -⟩ := Outcome.ok.inj ((fStat_slash tiny_geometry rfl hslash).symm.trans hi')
    rw [hstart', hstart] at hs
    exact absurd hs (by decide)
  · rw [chdirTo_iff tiny_geometry rfl hpath]
    decide

end PlanckOS.Fat32
