import PlanckOS.Applets.Mk
import PlanckOS.Fat32.Parents
import PlanckOS.Fat32.Listing

/-!
# What `mk -p` makes

The first names of a path are directories and the rest is missing. `create_path` makes what the path
asks for when at most one name is missing (`create_last`). When more are missing, the parent that it
asks for first has no slash at its end, so that it becomes a file, and the other names are made
below this file (`create_climbs`).

`mk_parents_iff` puts the two together.
-/

set_option autoImplicit false

namespace PlanckOS.Applets.Mk

open Lib.Fallible Fat32 List
open Fat32.FatVolume

variable {vol : FatVolume} {d : Disk} {img img' : Image} {c x new : Nat} {name : Bytes}
  {names front : List Bytes} {t : Terminal Disk} {q : Slot} {slash : Bool}

/-! ## What the path asks for -/

/-- Every proper initial part of the names is a directory with `.` and `..`, and all of them are a
directory if the path ended in a slash, and a regular file otherwise. -/
structure PathMade (vol : FatVolume) (img : Image) (names : List Bytes) (slash : Bool) : Prop where
  parents : ∀ part, part <+: names → part ≠ [] → part ≠ names → ∃ p,
    NamesEntry vol img (joinPath part) p ∧ IsDirEntry (img.slot p) ∧
      HasDots vol img (startOf (img.slot p))
  whole : ∃ p, NamesEntry vol img (joinPath names) p ∧ (IsDirEntry (img.slot p) ↔ slash = true)

section Paths

variable {p : Slot}

theorem resolvePath_joinPath (h : TypedNames names) (hne : names ≠ []) :
    (resolvePath vol (joinPath names) : DevOp Disk _) = resolveFrom vol vol.rootCluster names := by
  rw [resolvePath_eq, ← pathComponents_eq, pathComponents_joinPath h hne]

/-- The path of a name that is missing in the directory reached. -/
theorem notFound_joinPath (hg : Geometry vol) (hv : view vol d = img)
    (hdirs : WayTo vol img vol.rootCluster names c) (hmiss : Misses vol img c name)
    (h : TypedNames (names ++ [name])) : NotFound vol d (joinPath (names ++ [name])) c name := by
  obtain ⟨l, hl, hscan⟩ := hmiss
  constructor
  · rw [resolvePath_joinPath h (by simp), hdirs.resolveFrom_eq hg hv (by simp)]
    rfl
  · rw [findEntryInDir_eq hg hv hl, hscan]
    rfl

/-- The entry that a path of names stands for. -/
theorem namesEntry_joinPath (h : TypedNames (names ++ [name])) :
    NamesEntry vol img (joinPath (names ++ [name])) p ↔
      ∃ c, NamesDirs vol img vol.rootCluster names c ∧ Denotes vol img c name p := by
  have hcomp := pathComponents_joinPath h (by simp)
  constructor
  · rintro ⟨c, last, ⟨parents, hsplit, hdirs⟩, -, hp⟩
    obtain ⟨rfl, hlast⟩ := append_inj' (hcomp.symm.trans hsplit) rfl
    obtain rfl := singleton_inj.mp hlast
    exact ⟨c, hdirs, hp⟩
  · rintro ⟨c, hdirs, hp⟩
    exact ⟨c, name, ⟨names, hcomp, hdirs⟩, (h name (by simp)).1, hp⟩

/-- On the way to a directory a name stands for one entry. -/
theorem denotes_of_namesEntry (hg : Geometry vol) (h : TypedNames (names ++ [name]))
    (hdirs : WayTo vol img vol.rootCluster names c)
    (hp : NamesEntry vol img (joinPath (names ++ [name])) p) : Denotes vol img c name p := by
  obtain ⟨c', hdirs', hp⟩ := (namesEntry_joinPath h).mp hp
  rwa [hdirs.namesDirs.unique hg hdirs']

/-- The directories on the way are made, if the way and their dots are kept. -/
theorem dirs_made (hg : Geometry vol)
    (hdots : DotsKept vol img) (hfront : WayTo vol img vol.rootCluster front c)
    (hnames : TypedNames front)
    (hkeep : ∀ part b, part <+: front → WayTo vol img vol.rootCluster part b →
      WayTo vol img' vol.rootCluster part b) (hkept : ∀ b, HasDots vol img b → HasDots vol img' b) :
    ∀ part, part <+: front → part ≠ [] → ∃ p, NamesEntry vol img' (joinPath part) p ∧
      IsDirEntry (img'.slot p) ∧ HasDots vol img' (startOf (img'.slot p)) := by
  intro part hpart hne
  obtain ⟨more, rfl⟩ := hpart
  obtain ⟨b, hb, -⟩ := hfront.split
  obtain ⟨parents, name, rfl⟩ := eq_nil_or_concat part |>.resolve_left hne
  rw [concat_eq_append] at *
  have hnames' : TypedNames (parents ++ [name]) := hnames.of_subset (subset_append_left _ _)
  -- the directory has its dots in the volume of before
  obtain ⟨a, l, p, ha, hl, -, hp, hd, rfl⟩ := hb.last
  have hmem := mem_dirSlots.mp (namedSlot_some hp).1
  have hcluster := ((ha.depth .root).dirHead hg).dirCluster.of_chain hl _ hmem.1
  have hold := hkept _ (hdots p hcluster hmem.2 hd)
  obtain ⟨a', l', p', ha', hl', -, hp', hd', hstart⟩ :=
    (hkeep _ _ (prefix_append _ _) hb).last
  refine ⟨p', (namesEntry_joinPath hnames').mpr ⟨a', ha'.namesDirs, l', hl', hp'⟩, hd'.2.1, ?_⟩
  rwa [hstart]

end Paths

/-! ## At most one name is missing -/

section Last

variable (hg : Geometry vol) (hs : Shows vol t.dev img)
include hg hs

/-- Nothing is missing, so nothing is done. -/
theorem create_nothing (hnames : TypedNames front) (hne : front ≠ [])
    (hfront : WayTo vol img vol.rootCluster front c) :
    createPath (some vol) (typedPath front slash) true t = .ok () t := by
  obtain ⟨parents, last, rfl⟩ := eq_nil_or_concat front |>.resolve_left hne
  rw [concat_eq_append] at *
  obtain ⟨a, l, p, ha, hl, hscan, hp, hd, -⟩ := hfront.last
  have hpath : resolvePath vol (joinPath (parents ++ [last])) t.dev = .ok (a, last) t.dev := by
    rw [resolvePath_joinPath hnames hne, ha.resolveFrom_eq hg hs.view_eq (by simp)]
    rfl
  have hfind : vol.findEntryInDir a last t.dev = .ok (some p) t.dev := by
    rw [findEntryInDir_eq hg hs.view_eq hl, hscan]
    rfl
  have hvalid := hl.valid_of_mem (mem_dirSlots.mp (namedSlot_some hp).1).1
  rw [createPath_typedPath _ hnames hne]
  split
  · exact createDirectory_found
      (fStat_found hg hs.view_eq hpath (hnames last (by simp)).1 hfind hvalid) hd.2.1
  · apply createFile_exists
    rw [fOpen, withVol, openVol, Op.bind_ok hpath]
    refine (Op.bind_ok hfind).trans ?_
    exact congrFun (if_pos (by decide)) t.dev

variable (hw : WellFormed vol img) (hdots : DotsKept vol img)
  (hnames : TypedNames (front ++ [name]))
  (hbase : BaseName name) (hfirst : name.head? ≠ some 0xE5)
  (hfront : WayTo vol img vol.rootCluster front c) (hmiss : Misses vol img c name)
  (hvacant : FirstVacant vol img c q)

omit hs in
include hw hdots hnames hbase hfront hmiss hvacant in
/-- With an entry of this name in the vacant slot the path is made. -/
theorem pathMade_of_beside (h : Beside vol img q img')
    (hname : decodedName (img'.slot q) = name) (hlive : LiveEntry (img'.slot q))
    (hkind : IsDirEntry (img'.slot q) ↔ slash = true) :
    PathMade vol img' (front ++ [name]) slash := by
  have hnamed : Named name (img'.slot q) := by rw [Named, hname]
  have hdepth := hfront.depth .root
  obtain ⟨l, hl, hscan, hp⟩ := h.found hg hbase.ne_nil hvacant hmiss hlive hnamed
  obtain ⟨m, hm⟩ := hw.treeOk hg c (hdepth.dirHead hg).dirCluster
  have hagree := h.agreeBut hg hw hdepth hm (hvacant.mem hg hm)
  have hkeep : ∀ part b, part <+: front → WayTo vol img vol.rootCluster part b →
      WayTo vol img' vol.rootCluster part b := by
    intro part b hpart hb
    have := hpart.length_le
    exact hb.agree hg hw .root hdepth (by omega) hagree
  have hparents : TypedNames front := hnames.of_subset (subset_append_left _ _)
  have hdirs := dirs_made hg hdots hfront hparents hkeep
    fun b hb => h.hasDots hvacant.vacant hnamed hbase.plain hlive.2.1 hb
  constructor
  · intro part hpart hne hproper
    obtain hpart | rfl := prefix_concat_iff.mp hpart |>.symm
    · exact hdirs part hpart hne
    · exact absurd rfl hproper
  · refine ⟨q, (namesEntry_joinPath hnames).mpr ⟨c, ?_, l, hl, hp⟩, hkind⟩
    exact (hkeep front c prefix_rfl hfront).namesDirs

include hw hdots hnames hbase hfirst hfront hmiss hvacant in
/-- **One missing name** is made as the path asks for. -/
theorem create_last (hx : vol.Valid x) (hfree : img.next x = 0)
    (hext : slash = true → nameRun (img.slot q) 8 3 = []) :
    ∃ t', createPath (some vol) (typedPath (front ++ [name]) slash) true t = .ok () t' ∧
      PathMade vol (view vol t'.dev) (front ++ [name]) slash := by
  have ht := hw.treeOk hg
  have hc := ((hfront.depth .root).dirHead hg).dirCluster
  have hfound := notFound_joinPath hg hs.view_eq hfront hmiss hnames
  have hmade : ∀ {img' : Image} {slash : Bool}, Beside vol img q img' →
      decodedName (img'.slot q) = name → LiveEntry (img'.slot q) →
      (IsDirEntry (img'.slot q) ↔ slash = true) → PathMade vol img' (front ++ [name]) slash :=
    pathMade_of_beside hg hw hdots hnames hbase hfront hmiss hvacant
  rw [createPath_typedPath _ hnames (by simp)]
  cases slash with
  | true =>
    have hlen := hbase.short
    obtain ⟨new, d', img', hrun, hdir, hs'⟩ :=
      fMkdir_makes hg hs ht hc hfound hbase.ne_nil (by omega) hvacant hx hfree
    have hstat := fStat_missing hfound.1 hbase.ne_nil hfound.2
    refine ⟨{ t with dev := d' }, ?_, ?_⟩
    · rw [if_pos rfl]
      exact createDirectory_made hstat hrun
    · rw [hs'.view_eq]
      refine hmade (hdir.added hg).beside ?_ ?_ ?_
      · rw [hdir.entry, decodedName_newDirEntry hbase (hext rfl)]
      · rw [hdir.entry]
        exact newDirEntry_live ⟨hbase.shortName, hfirst⟩ _ _
      · rw [hdir.entry, IsDirEntry, newDirEntry_attr]
        decide
  | false =>
    obtain ⟨new, d', img', hrun, hcreated, hs', hslot⟩ :=
      fOpen_creates hg hs ht hc hfound.1 hfound.2 hvacant hx hfree
    refine ⟨{ t with dev := d' }, ?_, ?_⟩
    · rw [if_neg Bool.false_ne_true]
      exact createFile_made hrun
    · rw [hs'.view_eq]
      refine hmade hcreated.added.beside ?_ ?_ ?_
      · rw [hslot, decodedName_newEntry hbase.shortName]
      · rw [hslot]
        exact newEntry_live ⟨hbase.shortName, hfirst⟩ _ _
      · exact iff_of_false hcreated.regular Bool.false_ne_true

end Last

/-! ## More names are missing -/

/-- The free clusters hold no entry that the lookup of one of the names would find. -/
def CleanFree (vol : FatVolume) (img : Image) (names : List Bytes) : Prop :=
  ∀ r : Slot, vol.Valid r.1 → img.next r.1 = 0 → r.2 < vol.slotsPerCluster → ∀ name ∈ names,
    ¬ (LiveEntry (img.slot r) ∧ StartsWith name (img.slot r))

section More

variable {first last : Bytes} {inner : List Bytes}
  (hg : Geometry vol) (hs : Shows vol t.dev img) (hw : WellFormed vol img)
  (hfront : WayTo vol img vol.rootCluster front c) (hmiss : Misses vol img c first)
  (hbase : BaseName first) (hhead : first.head? ≠ some 0xE5) (hvacant : FirstVacant vol img c q)

include hg hs hfront hmiss in
/-- As long as the first name is missing, the calls find no path behind it. -/
theorem calls_noPath (hnames : TypedNames (front ++ first :: inner)) (hinner : inner ≠ []) :
    (∃ e, fStat (some vol) (joinPath (front ++ first :: inner)) t.dev = .err e t.dev) ∧
    fMkdir (some vol) (joinPath (front ++ first :: inner)) t.dev =
      .err .noPath t.dev ∧
    (fOpen (some vol) (joinPath (front ++ first :: inner)) (FA_WRITE ||| FA_CREATE_NEW) :
      DevOp Disk _) t.dev = .err .noPath t.dev := by
  have hpath : resolvePath vol (joinPath (front ++ first :: inner)) t.dev = .err .noPath t.dev := by
    obtain ⟨l, hl, hscan⟩ := hmiss
    rw [resolvePath_joinPath hnames (by simp), hfront.resolveFrom_eq hg hs.view_eq (by simp)]
    refine resolveFrom_missing (hnames first (by simp)).1 hinner ?_
    rw [findEntryInDir_eq hg hs.view_eq hl, hscan]
    rfl
  exact ⟨⟨.noPath, Op.bind_err hpath⟩, Op.bind_err hpath, Op.bind_err hpath⟩

include hg hw hfront hmiss hbase hhead hvacant in
/-- The way to the file with the first name. -/
theorem pinned_found (h : Pinned vol img q (newEntry (img.slot q) first new) img') :
    WayTo vol img' vol.rootCluster front c ∧
    ∃ l, img'.Chain vol c l ∧ scanDir img' first (vol.dirSlots l) = some (some q) ∧
      namedSlot img' first (vol.dirSlots l) = some q := by
  have hdec :
    decodedName (img'.slot q) = first := by rw [h.entry, decodedName_newEntry hbase.shortName]
  have hlive : LiveEntry (img'.slot q) := by
    rw [h.entry]
    exact newEntry_live ⟨hbase.shortName, hhead⟩ _ _
  have hdepth := hfront.depth .root
  obtain ⟨m, hm⟩ := hw.treeOk hg c (hdepth.dirHead hg).dirCluster
  have hagree := h.agreeBut hg hw hdepth hm (hvacant.mem hg hm)
  exact ⟨hfront.agree hg hw .root hdepth (Nat.le_refl _) hagree,
    h.found hg hbase.ne_nil hvacant hmiss hlive (by rw [Named, hdec])⟩

include hg hw hfront hmiss hbase hhead hvacant in
/-- Behind this file the walk goes on in its cluster. -/
theorem resolve_beneath (hv : view vol d = img')
    (h : Pinned vol img q (newEntry (img.slot q) first new) img')
    (hnames : TypedNames (front ++ first :: inner)) (hinner : inner ≠ []) :
    resolvePath vol (joinPath (front ++ first :: inner)) d =
      resolveFrom vol (startOf (newEntry (img.slot q) first new)) inner d := by
  obtain ⟨hfront', l, hl, hscan, -⟩ := pinned_found hg hw hfront hmiss hbase hhead hvacant h
  rw [resolvePath_joinPath hnames (by simp), hfront'.resolveFrom_eq hg hv (by simp),
    resolveFrom_scan hg hv hbase.ne_nil hinner hl hscan, h.entry]

include hg hs hw hfront hmiss hvacant in
/-- The first missing name becomes a file. -/
theorem first_made (hnames : TypedNames (front ++ [first])) (hplain : ∀ name ∈ names, BaseName name)
    (hclean : CleanFree vol img names) (hx : vol.Valid x) (hfree : img.next x = 0) :
    ∃ new, (createPath (some vol) (joinPath (front ++ [first])) true t).Sat
      (fun _ t' => ∃ img', Shows vol t'.dev img' ∧
        Beneath vol names img q (newEntry (img.slot q) first new) img') fun _ _ => True := by
  have ht := hw.treeOk hg
  have hc := ((hfront.depth .root).dirHead hg).dirCluster
  have hfound := notFound_joinPath hg hs.view_eq hfront hmiss hnames
  obtain ⟨new, d', img', hrun, hcreated, hs', hslot⟩ :=
    fOpen_creates hg hs ht hc hfound.1 hfound.2 hvacant hx hfree
  have hbeside := hcreated.added.beside
  have hcreate : createPath (some vol) (joinPath (front ++ [first])) true t =
      .ok () { t with dev := d' } := by
    rw [createPath_joinPath _ hnames (by simp)]
    exact createFile_made hrun
  obtain ⟨m, hm⟩ := ht q.1 hcreated.place
  have hplace := chain_next_ne_zero hm hm.head_mem
  refine ⟨new, ?_⟩
  rw [hcreate]
  refine ⟨img', hs', ⟨hbeside, hplace, hcreated.index, hslot⟩, ?_, ?_⟩
  · rw [← hslot, hcreated.start]
    exact ⟨hcreated.valid, hcreated.fresh, hcreated.added.next_new⟩
  · -- the clusters that were free still hold what they held
    intro r hrv hr hi name hmem hhit
    have hrq : r ≠ q := by
      rintro rfl
      exact hplace hr
    have hsame : img'.slot r = img.slot r := hcreated.written.slots r hrq hi
    have hname := hplain name hmem
    have hzero : (0 : UInt8) ∉ name := fun h0 => (hname.plain _ h0).2.2 rfl
    rw [hsame, checkSlot_eq hname.ne_nil hzero] at hhit
    refine absurd ?_ (hclean r hrv hr hi name hmem)
    split_ifs at hhit with _ _ hboth
    exact hboth

/-- The first name is a file, and all that was made since stands below it. -/
def FileFirst (vol : FatVolume) (img : Image) (names : List Bytes) (q : Slot) (e : Entry)
    (d : Disk) : Prop :=
  ∃ img', Shows vol d img' ∧ Beneath vol names img q e img'

/-- The parent of a path with a name below the first missing one. -/
theorem parent_below (h : TypedNames (front ++ first :: (inner ++ [last]))) :
    TypedNames (front ++ first :: inner) ∧
      parentPath (joinPath (front ++ first :: (inner ++ [last]))) =
        some (joinPath (front ++ first :: inner)) := by
  have hassoc : front ++ first :: (inner ++ [last]) = (front ++ first :: inner) ++ [last] := by simp
  refine ⟨h.of_subset (hassoc ▸ subset_append_left _ _), ?_⟩
  rw [hassoc] at h ⊢
  exact parentPath_joinPath h (by simp)

variable (hmade : (createPath (some vol) (joinPath (front ++ [first])) true t).Sat
    (fun _ t' => FileFirst vol img names q (newEntry (img.slot q) first new) t'.dev)
    fun _ _ => True)

include hg hs hw hfront hmiss hbase hhead hvacant hmade in
/-- **The missing names are made one after the other**, below the file with the first of them. -/
theorem create_climbs (hnames : TypedNames (front ++ first :: inner)) (hsub : inner ⊆ names) :
    (createPath (some vol) (joinPath (front ++ first :: inner)) true t).Sat
      (fun _ t' => FileFirst vol img names q (newEntry (img.slot q) first new) t'.dev)
      fun _ _ => True := by
  induction inner using reverseRecOn with
  | nil => exact hmade
  | append_singleton inner last ih =>
    obtain ⟨hparents, hparent⟩ := parent_below hnames
    obtain ⟨-, -, hopen⟩ := calls_noPath hg hs hfront hmiss hnames (by simp)
    rw [createPath_joinPath _ hnames (by simp), createFile_retry hopen]
    have hrest : inner ⊆ names := fun name hmem => hsub (mem_append_left _ hmem)
    refine retry_sat hparent (ih hparents hrest) ?_
    rintro d ⟨img', hs', h⟩
    have hpath := resolve_beneath hg hw hfront hmiss hbase hhead hvacant hs'.view_eq h.toPinned
      hnames (by simp)
    refine h.fOpen_sat hg hs' (fun name hmem => ⟨(hparents name ?_).1, hrest hmem⟩) hpath
    simp [hmem]

include hg hs hw hfront hmiss hbase hhead hvacant hmade in
/-- The whole path: the first missing name stays a file. -/
theorem create_more (hnames : TypedNames (front ++ first :: (inner ++ [last])))
    (hsub : inner ⊆ names) (slash : Bool) :
    (createPath (some vol) (typedPath (front ++ first :: (inner ++ [last])) slash) true t).Sat
      (fun _ t' => ∃ img', Shows vol t'.dev img' ∧
        Pinned vol img q (newEntry (img.slot q) first new) img') fun _ _ => True := by
  obtain ⟨hparents, hparent⟩ := parent_below hnames
  have hinner : ∀ name ∈ inner, name ≠ [] ∧ name ∈ names :=
    fun name hmem => ⟨(hparents name (by simp [hmem])).1, hsub hmem⟩
  obtain ⟨⟨e, hstat⟩, hmkdir, hopen⟩ := calls_noPath hg hs hfront hmiss hnames (by simp)
  have hclimb := create_climbs hg hs hw hfront hmiss hbase hhead hvacant hmade hparents hsub
  have hpath : ∀ {d : Disk} {img' : Image}, view vol d = img' →
      Pinned vol img q (newEntry (img.slot q) first new) img' →
      resolvePath vol (joinPath (front ++ first :: (inner ++ [last]))) d =
        resolveFrom vol (startOf (newEntry (img.slot q) first new)) (inner ++ [last]) d :=
    fun hv h => resolve_beneath hg hw hfront hmiss hbase hhead hvacant hv h hnames (by simp)
  rw [createPath_typedPath _ hnames (by simp)]
  let Q : Disk → Prop := fun d => ∃ img', Shows vol d img' ∧
    Pinned vol img q (newEntry (img.slot q) first new) img'
  split
  · rw [createDirectory_retry hstat hmkdir]
    refine retry_sat (Q := Q) hparent hclimb ?_
    rintro d ⟨img', hs', h⟩
    exact h.fMkdir_sat hg hs' hinner (hpath hs'.view_eq h.toPinned)
  · rw [createFile_retry hopen]
    refine retry_sat (Q := Q) hparent hclimb ?_
    rintro d ⟨img', hs', h⟩
    refine (h.fOpen_sat hg hs' hinner (hpath hs'.view_eq h.toPinned)).mono ?_ ?_
    · exact fun _ _ ⟨img'', hs'', h'⟩ => ⟨img'', hs'', h'.toPinned⟩
    · exact fun _ _ ⟨img'', hs'', h'⟩ => ⟨img'', hs'', h'.toPinned⟩

include hg hw hfront hmiss hbase hhead hvacant in
/-- A file where a directory is asked for. -/
theorem not_pathMade {rest : List Bytes}
    (h : Pinned vol img q (newEntry (img.slot q) first new) img') (hrest : rest ≠ [])
    (hnames : TypedNames (front ++ [first])) :
    ¬ PathMade vol img' (front ++ first :: rest) slash := by
  intro hpath
  obtain ⟨hfront', l, hl, -, hp⟩ :=
    pinned_found hg hw hfront hmiss hbase hhead hvacant h
  have hpart : front ++ [first] <+: front ++ first :: rest := by simp
  obtain ⟨p, hentry, hdir, -⟩ :=
    hpath.parents (front ++ [first]) hpart (by simp) (by simp [hrest.symm])
  have hdenotes := denotes_of_namesEntry hg hnames hfront' hentry
  obtain rfl := hdenotes.unique hg ⟨l, hl, hp⟩
  rw [h.entry] at hdir
  exact newEntry_regular _ _ _ hdir

end More

/-- **`mk -p` makes the path exactly when at most one of its names is missing**, this name does not
start with the byte `0xE5`, and a path that exists ends in a slash.

The volume is well formed and every directory has its dots. The names `front` are directories, one
in the other down to `c`, that the lookups find by these names. The lookup of the next name finds
nothing there. There is a free cluster and, for this name, a slot, and `f_mkdir` finds no extension
in it. The free clusters hold no entries with the names between the first and the last missing one.
-/
theorem mk_parents_iff (vol : FatVolume) (t : Terminal Disk) (front rest : List Bytes)
    (slash : Bool) (c : Nat) (hg : Geometry vol) (hm : Mirrored vol t.dev)
    (hw : WellFormed vol (view vol t.dev)) (hdots : DotsKept vol (view vol t.dev))
    (hne : front ++ rest ≠ [])
    (hnames : ∀ name ∈ front ++ rest, BaseName name ∧ (0x2F : UInt8) ∉ name)
    (hfront : WayTo vol (view vol t.dev) vol.rootCluster front c)
    (hmiss : ∀ first ∈ rest.head?, Misses vol (view vol t.dev) c first)
    (hroom : rest ≠ [] → ∃ q x, FirstVacant vol (view vol t.dev) c q ∧ vol.Valid x ∧
      (view vol t.dev).next x = 0)
    (hext : rest.length = 1 → slash = true → ∀ q, FirstVacant vol (view vol t.dev) c q →
      nameRun ((view vol t.dev).slot q) 8 3 = [])
    (hclean : CleanFree vol (view vol t.dev) rest.tail.dropLast) :
    (∃ t', createPath (some vol) (typedPath (front ++ rest) slash) true t = .ok () t' ∧
      PathMade vol (view vol t'.dev) (front ++ rest) slash) ↔
    rest.length ≤ 1 ∧ (rest = [] → slash = true) ∧ ∀ name ∈ rest, name.head? ≠ some 0xE5 := by
  have hs := hm.shows
  have hpaths : TypedNames (front ++ rest) := fun name hmem =>
    ⟨(hnames name hmem).1.ne_nil, (hnames name hmem).2⟩
  match rest with
  | [] =>
    rw [append_nil] at hne hpaths ⊢
    have hrun : createPath (some vol) (typedPath front slash) true t = .ok () t :=
      create_nothing hg hs hpaths hne hfront
    have hdirs := dirs_made hg hdots hfront hpaths (fun _ _ _ h => h) fun _ h => h
    obtain ⟨p, hentry, hdir, hhas⟩ := hdirs front prefix_rfl hne
    constructor
    · rintro ⟨t', hrun', hmade⟩
      obtain ⟨-, rfl⟩ := Outcome.ok.inj (hrun.symm.trans hrun')
      refine ⟨Nat.zero_le 1, fun _ => ?_, fun name hmem => absurd hmem not_mem_nil⟩
      obtain ⟨p', hentry', hkind⟩ := hmade.whole
      obtain ⟨parents, last, rfl⟩ := eq_nil_or_concat front |>.resolve_left hne
      rw [concat_eq_append] at *
      obtain ⟨a, l, -, ha, -⟩ := hfront.last
      have hp := denotes_of_namesEntry hg hpaths ha hentry
      obtain rfl := hp.unique hg (denotes_of_namesEntry hg hpaths ha hentry')
      exact hkind.mp hdir
    · rintro ⟨-, hslash, -⟩
      refine ⟨t, hrun, ⟨fun part hpart hpne _ => hdirs part hpart hpne, p, hentry, ?_⟩⟩
      exact iff_of_true hdir (hslash rfl)
  | [name] =>
    obtain ⟨q, x, hvacant, hx, hfree⟩ := hroom (by simp)
    have hbase := (hnames name (by simp)).1
    constructor
    · rintro ⟨t', -, hmade⟩
      refine ⟨Nat.le_refl 1, fun hnil => absurd hnil (by simp), ?_⟩
      obtain ⟨p, hentry, -⟩ := hmade.whole
      obtain ⟨b, -, hp⟩ := (namesEntry_joinPath hpaths).mp hentry
      simpa using head_of_denotes hp
    · rintro ⟨-, -, hhead⟩
      exact create_last hg hs hw hdots hpaths hbase (hhead name (by simp)) hfront
        (hmiss name rfl) hvacant hx hfree fun hslash => hext rfl hslash q hvacant
  | first :: second :: more =>
    refine iff_of_false ?_ fun h => absurd h.1 (by simp)
    rintro ⟨t', hrun, hmade⟩
    obtain ⟨q, x, hvacant, hx, hfree⟩ := hroom (by simp)
    have hbase := (hnames first (by simp)).1
    have hmiss := hmiss first rfl
    have hpart : TypedNames (front ++ [first]) := hpaths.of_subset (by simp)
    -- a name with the byte of deleted slots stands for nothing
    have hhead : first.head? ≠ some 0xE5 := by
      obtain ⟨p, hentry, -⟩ := hmade.parents (front ++ [first]) (by simp) (by simp) (by simp)
      obtain ⟨b, -, hp⟩ := (namesEntry_joinPath hpart).mp hentry
      exact head_of_denotes hp
    obtain ⟨inner, last, hsplit⟩ := eq_nil_or_concat (second :: more) |>.resolve_left (by simp)
    rw [concat_eq_append] at hsplit
    rw [hsplit] at hrun hmade hpaths
    have hclean' : CleanFree vol (view vol t.dev) inner := by
      rw [tail_cons, hsplit, dropLast_concat] at hclean
      exact hclean
    have hinner : ∀ name ∈ inner, BaseName name := by
      intro name hmem
      refine (hnames name ?_).1
      rw [hsplit]
      simp [hmem]
    obtain ⟨new, hfile⟩ :=
      first_made hg hs hw hfront hmiss hvacant hpart hinner hclean' hx hfree
    obtain ⟨img', hs', hpinned⟩ := (create_more hg hs hw hfront hmiss hbase hhead hvacant hfile
      hpaths (List.Subset.refl _) slash).of_ok hrun
    rw [hs'.view_eq] at hmade
    exact not_pathMade hg hw hfront hmiss hbase hhead hvacant hpinned (by simp) hpart hmade

/-! ## The volume with the directory `D` -/

/-- The two directories of the volume have their dots. -/
theorem second_dotsKept : DotsKept tinyVol secondImage := by
  intro p hp hi hd
  have hstart : ∀ c ∈ [2, 3, 4], ∀ i < tinyVol.slotsPerCluster,
      Subdirectory (secondImage.slot (c, i)) → startOf (secondImage.slot (c, i)) ∈ [3, 4] := by
    decide +kernel
  have hdots : ∀ c ∈ [3, 4], ∀ dots ∈ [[0x2E], [0x2E, 0x2E]], ∃ i < 2,
      namedSlot secondImage dots (tinyVol.dirSlots [c]) = some (c, i) ∧
        IsDirEntry (secondImage.slot (c, i)) := by
    decide +kernel
  have hmem := hstart p.1 ((second_dirCluster p.1).mp hp) p.2 hi hd
  intro dots hdot
  obtain ⟨i, -, hslot, hdir⟩ := hdots _ hmem dots hdot
  exact ⟨_, ⟨_, second_chain (mem_cons_of_mem _ hmem), hslot⟩, hdir⟩

theorem second_way_D : WayTo tinyVol secondImage tinyVol.rootCluster [[0x44]] 4 := by
  have hstart : startOf (secondImage.slot (2, 2)) = 4 := by decide +kernel
  refine .step (p := (2, 2)) (by decide) (second_chain (by decide)) (by decide +kernel)
    (by decide +kernel) (by decide +kernel) ?_ ?_
  · rw [hstart]
    decide
  · rw [hstart]
    exact .done 4

theorem baseName_singleton {b : UInt8} (h : b ≠ 0x20 ∧ b ≠ 0x2E ∧ b ≠ 0) : BaseName [b] where
  plain x hx := mem_singleton.mp hx ▸ h
  ne_nil := cons_ne_nil _ _
  short := by simp

/-- In `D`, which exists, the directory `X` is made. -/
theorem mk_parents_iff_D : ∃ t', createPath (some tinyVol) (typedPath ([[0x44]] ++ [[0x58]]) true)
      true ⟨secondDisk, []⟩ = .ok () t' ∧
    PathMade tinyVol (view tinyVol t'.dev) ([[0x44]] ++ [[0x58]]) true := by
  have hfirst : FirstVacant tinyVol secondImage 4 (4, 3) :=
    ⟨[4], [(4, 0), (4, 1), (4, 2)], (range' 4 12).map fun i => (4, i), second_chain (by decide),
      by decide, by decide +kernel, by decide +kernel⟩
  refine (mk_parents_iff tinyVol ⟨secondDisk, []⟩ [[0x44]] [[0x58]] true 4 tiny_geometry
    (tiny_mirrored _) second_wellFormed second_dotsKept (by simp) ?_ second_way_D ?_ ?_ ?_
    ?_).mpr ?_
  · intro name hmem
    simp only [mem_append, mem_singleton] at hmem
    rcases hmem with rfl | rfl <;> exact ⟨baseName_singleton (by decide), by decide⟩
  · rintro first hmem
    obtain rfl := Option.some.inj hmem
    exact ⟨[4], second_chain (by decide), by decide +kernel⟩
  · exact fun _ => ⟨(4, 3), 6, hfirst, by decide, by decide +kernel⟩
  · intro _ _ q hq
    obtain rfl := hfirst.unique tiny_geometry hq
    decide +kernel
  · exact fun r _ _ _ name hmem => absurd hmem not_mem_nil
  · exact ⟨by decide, by decide, by decide⟩

/-- **The parent becomes a file.** Neither `X` nor `X/Y` exists. After `mk -p X/Y` and after
`mk -p X/Y/`, which show no error, `X` is a regular file. -/
theorem parent_becomes_file :
    Geometry tinyVol ∧ WellFormed tinyVol secondImage ∧ DotsKept tinyVol secondImage ∧
    Misses tinyVol secondImage 2 [0x58] ∧
    ∀ slash, ∃ t', createPath (some tinyVol) (typedPath [[0x58], [0x59]] slash) true
        ⟨secondDisk, []⟩ = .ok () t' ∧ t'.display = [] ∧
      (∃ p, NamesEntry tinyVol (view tinyVol t'.dev) [0x58] p ∧
        ¬ IsDirEntry ((view tinyVol t'.dev).slot p)) ∧
      ¬ PathMade tinyVol (view tinyVol t'.dev) [[0x58], [0x59]] slash := by
  refine ⟨tiny_geometry, second_wellFormed, second_dotsKept,
    ⟨[2], second_chain (by decide), by decide +kernel⟩, fun slash => ?_⟩
  have hruns : ∀ slash, ∃ t', createPath (some tinyVol) (typedPath [[0x58], [0x59]] slash) true
      ⟨secondDisk, []⟩ = .ok () t' ∧ t'.display = [] ∧ END_MARK ≤ (view tinyVol t'.dev).next 2 ∧
      namedSlot (view tinyVol t'.dev) [0x58] (tinyVol.dirSlots [2]) = some (2, 3) ∧
      ¬ IsDirEntry ((view tinyVol t'.dev).slot (2, 3)) := by decide +kernel
  obtain ⟨t', hrun, hdisplay, hlast, hslot, hfile⟩ := hruns slash
  have hp : Denotes tinyVol (view tinyVol t'.dev) 2 [0x58] (2, 3) :=
    ⟨[2], .last (by decide) hlast, hslot⟩
  have hnames : TypedNames ([] ++ [[0x58]]) := by
    intro name hmem
    obtain rfl := mem_singleton.mp hmem
    exact ⟨by decide, by decide⟩
  have hentry : NamesEntry tinyVol (view tinyVol t'.dev) (joinPath ([] ++ [[0x58]])) (2, 3) :=
    (namesEntry_joinPath hnames).mpr ⟨2, .nil 2, hp⟩
  refine ⟨t', hrun, hdisplay, ⟨(2, 3), hentry, hfile⟩, fun hmade => ?_⟩
  obtain ⟨p, hentry', hdir, -⟩ := hmade.parents [[0x58]] (by decide) (by decide) (by decide)
  have hp' := denotes_of_namesEntry tiny_geometry hnames (.done 2) hentry'
  obtain rfl := hp'.unique tiny_geometry hp
  exact hfile hdir

end PlanckOS.Applets.Mk
