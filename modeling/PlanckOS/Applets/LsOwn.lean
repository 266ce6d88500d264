import PlanckOS.Applets.Ls
import PlanckOS.Fat32.Listing
import PlanckOS.Fat32.Names

/-!
# What `ls` says of an entry

`list_dir` reads the names of a directory with `f_readdir`, and for every name it asks `f_stat`
about the path that consists of a slash and the name. So the size and the directory bit are those of
the entry that the lookup of the name finds in the root, whichever directory is listed.

`collect_eq` is the list that is collected. `ls_own_iff` compares it with the slots themselves: the
two agree exactly when each lookup in the root finds an entry with the data of the slot, and the
long format shows a size exactly when it has at most eight digits.
-/

set_option autoImplicit false

namespace PlanckOS.Applets.Ls

open Lib.Fallible Lib.Numeral List
open Fat32 Fat32.FatVolume

variable {img : Image} {select : Bytes → Option Bool} {ps : List Slot} {name : Bytes} {e : Entry}
  {c i : Nat} {l : List Nat} {dir : Dir}

/-! ## The slots that are listed -/

/-- The name of the entry in a slot, in 13 bytes. -/
def slotName (e : Entry) : Bytes := (readDirEntryName e).getD []

/-- The slot holds an entry with a name that the handle selects. -/
def Selected (select : Bytes → Option Bool) (e : Entry) : Prop :=
  e 0 ≠ 0xE5 ∧ attrOf e &&& ATTR_VOLUME = 0 ∧ (readDirEntryName e).isSome ∧
    select (slotName e) = some true
  deriving Decidable

/-- The slots in front of the end marker that the handle selects. -/
def selectedSlots (img : Image) (select : Bytes → Option Bool) (ps : List Slot) : List Slot :=
  (ps.takeWhile fun p => img.slot p 0 ≠ 0).filter fun p => Selected select (img.slot p)

/-- Of these the slots that are listed: without `-a` not those of `.` and `..`. -/
def listedSlots (flags : LsFlags) (img : Image) (select : Bytes → Option Bool)
    (ps : List Slot) : List Slot :=
  (selectedSlots img select ps).filter fun p => flags.all || !isDotName (slotName (img.slot p))

/-- The size and the directory bit in a slot. -/
def infoOf (e : Entry) : Nat × Bool := (FatVolume.sizeOf e, decide (attrOf e &&& 0x10 ≠ 0))

/-- The name that is looked up in the root: up to its padding, or `?` when it is not UTF-8. -/
def lookedUp (name : Bytes) : Bytes := decoded (name.take (nameEnd name))

/-- What the lookup of a name among the slots of the root finds. -/
def rootInfo (img : Image) (root : List Slot) (name : Bytes) : Nat × Bool :=
  match scanDir img (lookedUp name) root with
  | some (some q) => infoOf (img.slot q)
  | _ => (0, false)

/-- The entry of `list_dir` with the name of the slot and the data given. -/
def entryWith (e : Entry) (info : Nat × Bool) : LsEntry := ⟨entryName (slotName e), info.1, info.2⟩

/-- The size at the right of 8 columns, with all of its digits. -/
def alignedSize (size : Nat) : Bytes :=
  let digits := numeral 10 (fun c => UInt8.ofNat c.toNat) size
  replicate (8 - digits.length) 0x20 ++ digits ++ [0]

section Slots

variable {p : Slot}

theorem selectedSlots_stop (h : img.slot p 0 = 0) : selectedSlots img select (p :: ps) = [] := by
  rw [selectedSlots, takeWhile_cons_of_neg (by simpa using h)]
  rfl

theorem selectedSlots_skip (h : img.slot p 0 ≠ 0) (hnot : ¬ Selected select (img.slot p)) :
    selectedSlots img select (p :: ps) = selectedSlots img select ps := by
  rw [selectedSlots, takeWhile_cons_of_pos (by simpa using h),
    filter_cons_of_neg (by simpa using hnot)]
  rfl

theorem selectedSlots_hit (h : img.slot p 0 ≠ 0) (hsel : Selected select (img.slot p)) :
    selectedSlots img select (p :: ps) = p :: selectedSlots img select ps := by
  rw [selectedSlots, takeWhile_cons_of_pos (by simpa using h),
    filter_cons_of_pos (by simpa using hsel)]
  rfl

/-- How the search of `f_readdir` ends, in terms of the slots still to come. -/
def FoundAmong (img : Image) (select : Bytes → Option Bool) (ps : List Slot) :
    Option (Option (Bytes × List Slot)) → Prop
  | none => True
  | some none => selectedSlots img select ps = []
  | some (some (name, rest)) => rest.length < ps.length ∧ ∃ p ∈ ps,
      selectedSlots img select ps = p :: selectedSlots img select rest ∧
      readDirEntryName (img.slot p) = some name

theorem FoundAmong.skip {r : Option (Option (Bytes × List Slot))} (h : FoundAmong img select ps r)
    (heq : selectedSlots img select (p :: ps) = selectedSlots img select ps) :
    FoundAmong img select (p :: ps) r := by
  rcases r with _ | _ | ⟨name, rest⟩
  · trivial
  · exact heq.trans h
  · obtain ⟨hlen, q, hq, hsel, hname⟩ := h
    exact ⟨hlen.trans (Nat.lt_succ_self _), q, mem_cons_of_mem p hq, heq.trans hsel, hname⟩

theorem nextMatch_found (img : Image) (select : Bytes → Option Bool) (ps : List Slot) :
    FoundAmong img select ps (nextMatch img select ps) := by
  induction ps with
  | nil => exact rfl
  | cons p ps ih =>
    rw [nextMatch, readVerdict]
    by_cases hstop : img.slot p 0 = 0
    · rw [if_pos hstop]
      exact selectedSlots_stop hstop
    rw [if_neg hstop]
    by_cases hkeep : img.slot p 0 ≠ 0xE5 ∧ attrOf (img.slot p) &&& ATTR_VOLUME = 0
    · rw [if_pos hkeep]
      cases hname : readDirEntryName (img.slot p) with
      | none =>
        refine ih.skip (selectedSlots_skip hstop fun h => ?_)
        rw [Selected, hname] at h
        exact absurd h.2.2.1 (by decide)
      | some name =>
        have hslot : slotName (img.slot p) = name := by rw [slotName, hname, Option.getD_some]
        simp only
        cases hselect : select name with
        | none => trivial
        | some b =>
          cases b with
          | true =>
            refine ⟨Nat.lt_succ_self _, p, mem_cons_self, selectedSlots_hit hstop ?_, hname⟩
            exact ⟨hkeep.1, hkeep.2, by rw [hname]; rfl, by rw [hslot, hselect]⟩
          | false =>
            refine ih.skip (selectedSlots_skip hstop fun h => ?_)
            rw [Selected, hslot, hselect] at h
            exact absurd h.2.2.2 (by decide)
    · rw [if_neg hkeep]
      exact ih.skip (selectedSlots_skip hstop fun h => hkeep ⟨h.1, h.2.1⟩)

theorem listedSlots_cons (flags : LsFlags) {rest : List Slot}
    (h : selectedSlots img select ps = p :: selectedSlots img select rest)
    (hname : readDirEntryName (img.slot p) = some name) : listedSlots flags img select ps =
      if !flags.all && isDotName name then listedSlots flags img select rest
      else p :: listedSlots flags img select rest := by
  have hslot : slotName (img.slot p) = name := by rw [slotName, hname, Option.getD_some]
  rw [listedSlots, h, filter_cons, hslot, listedSlots]
  cases flags.all <;> cases isDotName name <;> rfl

end Slots

/-! ## The lookup of a name -/

section Names

variable {body part : Bytes}

variable (h : readDirEntryName e = some name)
include h

/-- A name that `f_readdir` returns, in front of its padding. -/
theorem readDirEntryName_body :
    ∃ body k, name = body ++ replicate (k + 1) 0 ∧ body ≠ [] ∧ (0 : UInt8) ∉ body := by
  have hlen := decodedName_length_le e
  rw [readDirEntryName] at h
  split_ifs at h with hempty
  cases h
  refine ⟨decodedName e, 12 - (decodedName e).length, ?_, ?_,
    fun hmem => (decodedName_ne hmem).2 rfl⟩
  · rw [show 13 - (decodedName e).length = 12 - (decodedName e).length + 1 by omega]
  · exact fun hnil => hempty (by rw [hnil]; rfl)

/-- The part of the name that is used is not empty. -/
theorem take_nameEnd :
    nameEnd name ≠ 0 ∧ name.take (nameEnd name) ≠ [] ∧ (0 : UInt8) ∉ name.take (nameEnd name) := by
  obtain ⟨body, k, rfl, hne, hzero⟩ := readDirEntryName_body h
  obtain ⟨b, body, rfl⟩ := exists_cons_of_ne_nil hne
  have hnone : (b :: body).findIdx? (· == 0) = none := by
    rw [findIdx?_eq_none_iff]
    intro x hx
    simpa using fun h0 : x = 0 => hzero (h0 ▸ hx)
  rw [nameEnd]
  split_ifs with hvalid
  · rw [findIdx?_append, hnone, replicate_succ, findIdx?_cons]
    simpa using hzero
  · simpa using fun h0 : 0 = b => hzero (h0 ▸ mem_cons_self)

/-- The path that `f_stat` gets has one component, the name that is looked up. -/
theorem pathComponents_statPath (hslash : (0x2F : UInt8) ∉ name) :
    pathComponents (statPath name) = [lookedUp name] ∧ lookedUp name ≠ [] ∧
      (0 : UInt8) ∉ lookedUp name := by
  obtain ⟨-, hne, hzero⟩ := take_nameEnd h
  have hpart : (0x2F : UInt8) ∉ name.take (nameEnd name) :=
    fun hmem => hslash (mem_of_mem_take hmem)
  rw [statPath, lookedUp]
  generalize name.take (nameEnd name) = part at hne hzero hpart
  have hvalid : validUtf8 (0x2F :: part) = true ↔ validUtf8 part = true :=
    @validUtf8_append_iff [0x2F] part (validUtf8_ascii (by simp))
  rw [decoded, decoded]
  by_cases hutf : validUtf8 part = true
  · obtain ⟨b, part, rfl⟩ := exists_cons_of_ne_nil hne
    have hfirst : (b == 0x2F) = false := by
      simpa using fun hb : b = 0x2F => hpart (hb ▸ mem_cons_self)
    rw [if_pos hutf, if_pos (hvalid.mpr hutf)]
    refine ⟨?_, hne, hzero⟩
    rw [pathComponents, dropWhile_cons_of_pos (by decide),
      dropWhile_cons_of_neg (by simpa using hfirst), splitOn_eq_singleton hpart]
  · rw [if_neg hutf, if_neg fun h => hutf (hvalid.mp h)]
    exact ⟨by decide, by decide, by decide⟩

end Names

/-! ## The collection -/

section Collection

variable {vol : FatVolume} {d : Disk} {lr : List Nat}
  {t : Terminal Disk} {flags : LsFlags}

variable (hg : Geometry vol)
include hg

/-- `f_stat` answers for the root. -/
theorem statEntry_eq (hroot : (view vol t.dev).Chain vol vol.rootCluster lr)
    (hname : readDirEntryName e = some name) (hslash : (0x2F : UInt8) ∉ name) :
    statEntry (some vol) name t =
      .ok (rootInfo (view vol t.dev) (vol.dirSlots lr) name) t := by
  obtain ⟨hcomp, hne, hzero⟩ := pathComponents_statPath hname hslash
  have hpath : PathTo vol (view vol t.dev) (statPath name) vol.rootCluster (lookedUp name) :=
    ⟨[], hcomp, .nil _⟩
  have hresolve := hpath.resolve hg rfl
  have hfind := findEntryInDir_eq hg rfl hroot (lookedUp name)
  have hnone : scanDir (view vol t.dev) (lookedUp name) (vol.dirSlots lr) ≠ none :=
    scanDir_ne_none hne hzero _
  rw [statEntry, rootInfo]
  rcases hscan : scanDir (view vol t.dev) (lookedUp name) (vol.dirSlots lr) with _ | _ | q
  · exact absurd hscan hnone
  · rw [hscan] at hfind
    exact Op.bind_ok (attempt_err (fStat_missing hresolve hne hfind))
  · rw [hscan] at hfind
    obtain ⟨pre, post, hsplit, -, -⟩ := scanDir_found hscan
    have hq := mem_iff_append.mpr ⟨_, _, hsplit⟩
    have hvalid := hroot.valid_of_mem (mem_dirSlots.mp hq).1
    exact Op.bind_ok (attempt_ok (fStat_found hg rfl hresolve hne hfind hvalid))

omit hg in
theorem nextMatch_congr {img' : Image} (h : ∀ p ∈ ps, img.slot p = img'.slot p) :
    nextMatch img select ps = nextMatch img' select ps := by
  induction ps with
  | nil => rfl
  | cons p ps ih =>
    rw [forall_mem_cons] at h
    rw [nextMatch, nextMatch, h.1, ih h.2]

/-- `f_readdir` on a directory of the volume. -/
theorem fReaddir_view (hl : (view vol d).Chain vol c l) (hon : DirOn vol d c dir ps) :
    ReadsMatch vol d c dir.select (nextMatch (view vol d) dir.select ps)
      (fReaddir (some vol) ⟨d, dir⟩) := by
  have hslot : ∀ p ∈ ps, (vol.imageOn d).slot p = (view vol d).slot p := by
    intro p hp
    have hmem := dirOn_subset hon (hl.on hg rfl) hp
    exact congrArg (entryAt · p.2) (clusterOn_eq hg rfl (hl.valid_of_mem (mem_dirSlots.mp hmem).1))
  rw [← nextMatch_congr hslot]
  exact fReaddir_on (slotsPerCluster_pos hg) ((slotsPerCluster_le hg).trans_lt (by norm_num)) hon

/-- The entries that are collected: the names of the slots, with what the root has for them. -/
def collected (flags : LsFlags) (img : Image) (root : List Slot)
    (select : Bytes → Option Bool) (ps : List Slot) : List LsEntry :=
  (listedSlots flags img select ps).map fun p =>
    entryWith (img.slot p) (rootInfo img root (slotName (img.slot p)))

/-- The names that a handle meets: its pattern does not panic on them and they have no slash. -/
def NamesOk (select : Bytes → Option Bool) (img : Image) (ps : List Slot) : Prop :=
  ∀ name ∈ slotNames (ps.map img.slot), select name ≠ none ∧ (0x2F : UInt8) ∉ name

/-- The loop of `list_dir` from any point on. -/
theorem collectLoop_eq (hl : (view vol t.dev).Chain vol c l)
    (hroot : (view vol t.dev).Chain vol vol.rootCluster lr) {n : Nat}
    {acc : List LsEntry} (hon : DirOn vol t.dev c dir ps) (hselect : dir.select = select)
    (hn : ps.length < n) (hnames : NamesOk select (view vol t.dev) ps)
    (hcount : acc.length + (listedSlots flags (view vol t.dev) select ps).length ≤ MAX_ENTRIES) :
    Op.loopM (collectStep (some vol) flags) n (dir, acc) t =
      .ok (acc ++ collected flags (view vol t.dev) (vol.dirSlots lr) select ps) t := by
  induction n generalizing dir ps acc with
  | zero => exact absurd hn (Nat.not_lt_zero _)
  | succ n ih =>
    have hread := fReaddir_view hg hl hon
    have hfound := nextMatch_found (view vol t.dev) select ps
    have hmatched := nextMatch_spec (view vol t.dev) select ps
    rw [hselect] at hread
    rcases hnext : nextMatch (view vol t.dev) select ps with _ | _ | ⟨name, rest⟩
    · rw [hnext] at hmatched
      obtain ⟨name, hmem, hnone⟩ := hmatched
      exact absurd hnone (hnames name hmem).1
    · -- The directory is at its end.
      rw [hnext] at hread hfound
      obtain ⟨dir', hrun, -, -⟩ := hread
      have hempty : collected flags (view vol t.dev) (vol.dirSlots lr) select ps = [] := by
        rw [collected, listedSlots, hfound]
        rfl
      have hround : collectStep (some vol) flags (dir, acc) t = .ok (.done acc) t := by
        rw [collectStep]
        exact (Op.bind_ok (attemptReaddir_ok hrun)).trans rfl
      rw [Op.loopM_done hround, hempty, append_nil]
    · rw [hnext] at hread hfound hmatched
      obtain ⟨dir', hrun, hon', hselect'⟩ := hread
      obtain ⟨hlen, p, -, hslots, hname⟩ := hfound
      obtain ⟨-, -, before, -, hsplit⟩ := hmatched
      have hmem : name ∈ slotNames (ps.map (view vol t.dev).slot) := by simp [hsplit]
      have hrest : NamesOk select (view vol t.dev) rest := by
        intro other hother
        exact hnames other (by simp [hsplit, hother])
      have hcons := listedSlots_cons flags hslots hname
      rw [hcons] at hcount
      by_cases hdot : (!flags.all && isDotName name) = true
      · rw [if_pos hdot] at hcons hcount
        have hround : collectStep (some vol) flags (dir, acc) t = .ok (.next (dir', acc)) t := by
          rw [collectStep, Op.bind_ok (attemptReaddir_ok hrun)]
          simp only [if_pos hdot]
          rfl
        rw [Op.loopM_next hround, ih hon' hselect' (by omega) hrest hcount, collected, collected,
          hcons]
      · rw [if_neg hdot] at hcons hcount
        rw [length_cons] at hcount
        have hslot : slotName ((view vol t.dev).slot p) = name := by
          rw [slotName, hname, Option.getD_some]
        have hround : collectStep (some vol) flags (dir, acc) t =
            .ok (.next (dir', acc ++ [entryWith ((view vol t.dev).slot p)
              (rootInfo (view vol t.dev) (vol.dirSlots lr) name)])) t := by
          rw [collectStep, Op.bind_ok (attemptReaddir_ok hrun)]
          simp only [if_neg hdot]
          rw [if_neg (by omega), if_neg (take_nameEnd hname).1,
            Op.bind_ok (statEntry_eq hg hroot hname (hnames name hmem).2), entryWith, hslot]
          rfl
        rw [Op.loopM_next hround, ih hon' hselect' (by omega) hrest (by simp; omega), collected,
          collected, hcons, map_cons, hslot, append_assoc, singleton_append]

/-- **What `list_dir` collects**: the names of the directory, with what the root has for them. -/
theorem collect_eq (hl : (view vol t.dev).Chain vol c l)
    (hroot : (view vol t.dev).Chain vol vol.rootCluster lr) (hon : DirOn vol t.dev c dir ps)
    (hnames : NamesOk dir.select (view vol t.dev) ps)
    (hcount : (listedSlots flags (view vol t.dev) dir.select ps).length ≤ MAX_ENTRIES) :
    collect (some vol) flags dir t =
      .ok (collected flags (view vol t.dev) (vol.dirSlots lr) dir.select ps) t := by
  have hslots : vol.slotsPerCluster < 2 ^ 16 := (slotsPerCluster_le hg).trans_lt (by norm_num)
  rw [collect, collectLoop_eq hg hl hroot hon rfl (hon.length_lt hslots) hnames
    (by simpa using hcount), nil_append]

end Collection

/-! ## The size field -/

theorem sizeField_length (size : Nat) : (sizeField size).length = 9 := by
  have hbounds : (fillDown 10 (fun d => UInt8.ofNat d + 0x30) 8 size (replicate 9 0)).1 ≤ 8 ∧
      (fillDown 10 (fun d => UInt8.ofNat d + 0x30) 8 size (replicate 9 0)).2.2.length = 9 :=
    fillDown_bounds 8 size (replicate 9 0)
  rw [sizeField]
  generalize fillDown 10 (fun d => UInt8.ofNat d + 0x30) 8 size (replicate 9 0) = r at hbounds
  obtain ⟨hpos, hlen⟩ := hbounds
  rw [length_append, length_replicate, length_drop, hlen]
  omega

/-- The long format has all digits of a size exactly if there are at most eight. -/
theorem sizeField_iff (size : Nat) : sizeField size = alignedSize size ↔ size < 10 ^ 8 := by
  constructor
  · intro h
    by_contra hlarge
    have hdigits : 8 < (numeral 10 (fun c => UInt8.ofNat c.toNat) size).length :=
      lt_numeral_length (by omega) (Nat.le_of_not_lt hlarge)
    have hlen := congrArg length h
    simp only [sizeField_length, alignedSize, length_append, length_replicate,
      length_singleton] at hlen
    omega
  · intro hsmall
    have hdigits : (numeral 10 (fun c => UInt8.ofNat c.toNat) size).length ≤ 8 :=
      numeral_length_le (by omega) hsmall
    have hdigit : ∀ d < 10, UInt8.ofNat d + 0x30 = UInt8.ofNat d.digitChar.toNat := by decide
    obtain ⟨buf, hfill, -, hdrop⟩ := fillDown_numeral (by omega) hdigit 8 size (replicate 9 0)
      hdigits (by decide)
    simp only [sizeField, hfill, hdrop, alignedSize, append_assoc]
    rfl

/-! ## The entries and their own data -/

/-- **`ls` reports the data of an entry's own slot exactly when the root agrees.** The handle is on
the directory at `c` with the slots `ps` before it, of which at most 256 are listed. `list_dir`
prints the listing of some entries; these have the sizes and the directory bits of the slots, and
the long format shows the sizes, exactly when the lookup of every listed name in the root finds an
entry with the data of the slot (or none, and the slot is that of an empty file), and with `-l` the
sizes have at most eight digits. -/
theorem ls_own_iff (vol : FatVolume) (t : Terminal Disk) (c : Nat) (lr : List Nat) (dir : Dir)
    (ps : List Slot) (flags : LsFlags) (hg : Geometry vol) (hw : WellFormed vol (view vol t.dev))
    (hc : DirCluster vol (view vol t.dev) c)
    (hroot : (view vol t.dev).Chain vol vol.rootCluster lr) (hon : DirOn vol t.dev c dir ps)
    (hnames : NamesOk dir.select (view vol t.dev) ps)
    (hcount : (listedSlots flags (view vol t.dev) dir.select ps).length ≤ MAX_ENTRIES) :
    ∃ es, listDir (some vol) flags dir t =
        .ok () { t with display := t.display ++ if es = [] then [] else listing flags es } ∧
      ((es = (listedSlots flags (view vol t.dev) dir.select ps).map (fun p =>
            entryWith ((view vol t.dev).slot p) (infoOf ((view vol t.dev).slot p))) ∧
          (flags.long = true → ∀ e ∈ es, sizeField e.size = alignedSize e.size)) ↔
        ∀ p ∈ listedSlots flags (view vol t.dev) dir.select ps,
          rootInfo (view vol t.dev) (vol.dirSlots lr) (slotName ((view vol t.dev).slot p)) =
            infoOf ((view vol t.dev).slot p) ∧
          (flags.long = true → FatVolume.sizeOf ((view vol t.dev).slot p) < 10 ^ 8)) := by
  obtain ⟨l, hl⟩ := hw.treeOk hg c hc
  have hcollect := collect_eq hg hl hroot hon hnames hcount
  refine ⟨collected flags (view vol t.dev) (vol.dirSlots lr) dir.select ps, ?_, ?_, ?_⟩
  · rw [listDir, Op.bind_ok hcollect]
    simp only [length_eq_zero_iff]
    split_ifs with hempty
    · rw [append_nil]
      rfl
    · rfl
  · rintro ⟨hown, hlong⟩ p hp
    rw [collected] at hown
    have hentry := map_inj_left.mp hown p hp
    have hinfo : rootInfo (view vol t.dev) (vol.dirSlots lr) (slotName ((view vol t.dev).slot p)) =
        infoOf ((view vol t.dev).slot p) := by
      simpa [entryWith, Prod.ext_iff] using hentry
    refine ⟨hinfo, fun hl => ?_⟩
    have hfield := hlong hl _ (mem_map_of_mem hp)
    rw [hinfo] at hfield
    exact (sizeField_iff _).mp hfield
  · intro hagrees
    have hown : collected flags (view vol t.dev) (vol.dirSlots lr) dir.select ps =
        (listedSlots flags (view vol t.dev) dir.select ps).map fun p =>
          entryWith ((view vol t.dev).slot p) (infoOf ((view vol t.dev).slot p)) :=
      map_congr_left fun p hp => by rw [(hagrees p hp).1]
    refine ⟨hown, fun hl e he => ?_⟩
    rw [hown] at he
    obtain ⟨p, hp, rfl⟩ := mem_map.mp he
    exact (sizeField_iff _).mpr ((hagrees p hp).2 hl)

/-! ## On the sample volume -/

/-- A handle of `f_opendir` on the directory at `c`, at slot `i`. -/
def handleAt (c i : Nat) : Dir where
  startCluster := c
  currentCluster := c
  sectorInCluster := 0
  entryIndex := i
  ended := false
  pattern := replicate 11 0
  patLen := 0

/-- The slots before such a handle. -/
theorem handleAt_on {d : Disk} (hl : (view tinyVol d).Chain tinyVol c [c])
    (hi : i ≤ tinyVol.slotsPerCluster) :
    DirOn tinyVol d c (handleAt c i) ((tinyVol.clusterSlots c).drop i) := by
  have hchain : tinyVol.ChainOn d c ([] ++ (handleAt c i).currentCluster :: []) :=
    hl.on tiny_geometry rfl
  have hon : DirOn tinyVol d c (handleAt c i) ((tinyVol.clusterSlots c).drop i ++ []) :=
    .within rfl hchain hi
  rwa [append_nil] at hon

/-- The handle has no pattern, so the names only have to be without a slash. -/
theorem handleAt_namesOk {names : List Bytes}
    (h : slotNames (ps.map img.slot) = names) (hslash : ∀ name ∈ names, (0x2F : UInt8) ∉ name) :
    NamesOk (handleAt c i).select img ps := by
  intro name hname
  rw [h] at hname
  exact ⟨Option.some_ne_none true, hslash name hname⟩

/-- A root directory with the file `F` of one byte, the directory `D` and the file `G` of 32
bytes. -/
def threeDisk : Disk := diskOf (0x0FFFFFF8 :: replicate 5 0x0FFFFFFF)
  [fileSlot [0x46] 3 1 ++ dirSlot [0x44] 4 ++ fileSlot [0x47] 5 32, [], dotSlots 4]

/-- No name of the root is a part of another one: the entries are listed with their own sizes. -/
theorem ls_own_iff_three : (listDir (some tinyVol) ⟨true, false, false, false⟩ (handleAt 2 0) :
      TermOp Disk Unit) ⟨threeDisk, []⟩ = .ok () ⟨threeDisk, listing ⟨true, false, false, false⟩
        [⟨0x46 :: replicate 12 0, 1, false⟩, ⟨0x44 :: replicate 12 0, 0, true⟩,
          ⟨0x47 :: replicate 12 0, 32, false⟩]⟩ := by
  have hwell : WellFormed tinyVol (view tinyVol threeDisk) :=
    wellFormed_of_lists [2, 4]
      [(none, [2]), (some (2, 0), [3]), (some (2, 1), [4]), (some (2, 2), [5])] tiny_geometry
      (by decide +kernel)
  have hroot : (view tinyVol threeDisk).Chain tinyVol 2 [2] := by decide +kernel
  have hlisted : listedSlots ⟨true, false, false, false⟩ (view tinyVol threeDisk)
      (handleAt 2 0).select (tinyVol.clusterSlots 2) = [(2, 0), (2, 1), (2, 2)] := by
    decide +kernel
  have hnames : slotNames ((tinyVol.clusterSlots 2).map (view tinyVol threeDisk).slot) =
      [0x46 :: replicate 12 0, 0x44 :: replicate 12 0, 0x47 :: replicate 12 0] := by decide +kernel
  obtain ⟨es, hrun, hown⟩ := ls_own_iff tinyVol ⟨threeDisk, []⟩ 2 [2] (handleAt 2 0) _
    ⟨true, false, false, false⟩ tiny_geometry hwell .root hroot
    (handleAt_on hroot (Nat.zero_le _)) (handleAt_namesOk hnames (by decide))
    (by rw [drop_zero, hlisted]; decide)
  rw [drop_zero, hlisted] at hown
  have hes := (hown.mpr (by decide +kernel)).1
  have hentries : [(2, 0), (2, 1), (2, 2)].map (fun p => entryWith ((view tinyVol threeDisk).slot p)
      (infoOf ((view tinyVol threeDisk).slot p))) = [⟨0x46 :: replicate 12 0, 1, false⟩,
        ⟨0x44 :: replicate 12 0, 0, true⟩, ⟨0x47 :: replicate 12 0, 32, false⟩] := by
    decide +kernel
  rw [hrun, hes, hentries]
  rfl

/-- The directory `A` of the sample volume holds the file `G` of one byte. There is no `G` in the
root, and `ls` lists it with the size 0, which `ls -l` prints. -/
theorem ls_reports_root :
    Geometry tinyVol ∧ WellFormed tinyVol sampleImage ∧ DirCluster tinyVol sampleImage 4 ∧
    DirOn tinyVol sampleDisk 4 (handleAt 4 0) (tinyVol.clusterSlots 4) ∧
    listedSlots LsFlags.default sampleImage (handleAt 4 0).select (tinyVol.clusterSlots 4) =
      [(4, 2)] ∧ infoOf (sampleImage.slot (4, 2)) = (1, false) ∧
    collect (some tinyVol) LsFlags.default (handleAt 4 0) ⟨sampleDisk, []⟩ =
      .ok [⟨0x47 :: replicate 12 0, 0, false⟩] ⟨sampleDisk, []⟩ ∧
    (listDir (some tinyVol) ⟨true, false, false, false⟩ (handleAt 4 0) : TermOp Disk Unit)
      ⟨sampleDisk, []⟩ = .ok () ⟨sampleDisk, [.path [0x20], .path [0x20],
        .path (replicate 7 0x20 ++ [0x30, 0]), .path [0x20], .path [0x47], .newline]⟩ := by
  have hchain : sampleImage.Chain tinyVol 4 [4] := by decide +kernel
  have hdir := (sample_dirCluster 4).mpr (by decide)
  have hon : DirOn tinyVol sampleDisk 4 (handleAt 4 0) (tinyVol.clusterSlots 4) :=
    handleAt_on hchain (Nat.zero_le _)
  have hlisted : ∀ long, listedSlots ⟨long, false, false, false⟩ sampleImage (handleAt 4 0).select
      (tinyVol.clusterSlots 4) = [(4, 2)] := by decide +kernel
  have hnames : slotNames ((tinyVol.clusterSlots 4).map sampleImage.slot) =
      [0x2E :: replicate 12 0, 0x2E :: 0x2E :: replicate 11 0, 0x47 :: replicate 12 0] := by
    decide +kernel
  have hentry : entryWith (sampleImage.slot (4, 2)) (rootInfo sampleImage (tinyVol.dirSlots [2])
      (slotName (sampleImage.slot (4, 2)))) = ⟨0x47 :: replicate 12 0, 0, false⟩ := by
    decide +kernel
  have hcollect : ∀ long, collect (some tinyVol) ⟨long, false, false, false⟩ (handleAt 4 0)
      ⟨sampleDisk, []⟩ = .ok [⟨0x47 :: replicate 12 0, 0, false⟩] ⟨sampleDisk, []⟩ := by
    intro long
    rw [collect_eq (t := ⟨sampleDisk, []⟩) tiny_geometry hchain sample_root_chain hon
      (handleAt_namesOk hnames (by decide)) (by rw [hlisted]; decide), collected, hlisted,
      map_singleton, hentry]
  refine ⟨tiny_geometry, sample_wellFormed, hdir, hon, hlisted false, by decide +kernel,
    hcollect false, ?_⟩
  rw [listDir, Op.bind_ok (hcollect true)]
  rfl

end PlanckOS.Applets.Ls
