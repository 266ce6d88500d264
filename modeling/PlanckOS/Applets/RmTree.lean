import PlanckOS.Applets.Rm
import PlanckOS.Fat32.Prune
import PlanckOS.Fat32.Names

/-!
# What `rm -r` removes

For a directory, `remove_path` opens the path with `f_opendir`, which lists the directory that holds
the entry and not the one that it names. The names found there are then looked up inside of the
directory, and the directory is removed with what is left in it. `sweep` says which entries this
reaches, as a function of the tree before the call, and `removePath_sweeps` that exactly these are
removed. `rm_removes_tree_iff` concludes when the whole subtree goes: when the sweep reaches every
entry below the path that has clusters. `rm_leaves_file` is a directory with one file that it
misses.
-/

set_option autoImplicit false

namespace PlanckOS.Applets.Rm

open Lib.Fallible Fat32 FatVolume List

variable {path name : Bytes} {vol : FatVolume} {img img₀ : Image} {c n k : Nat} {l : List Nat}
  {e : Entry} {S G G' ps : List Slot} {p : Slot} {t : Terminal Disk} {d : Disk} {force : Bool}
  {dir : Dir}

/-! ## Names -/

/-- A name as `f_readdir` returns it: ASCII bytes without a slash, padded with NUL bytes. -/
def Spelled (name : Bytes) : Prop :=
  ∃ body k, name = body ++ replicate (k + 1) 0 ∧ ∀ b ∈ body, b ≠ 0 ∧ b < 0x80 ∧ b ≠ 0x2F

/-- The component that the loop appends to a path of `len` bytes for a name. -/
def childName (len : Nat) (name : Bytes) : Option Bytes :=
  if isDotName name then none
  else if nameEnd name = 0 then none
  else if MAX_PATH ≤ len + 1 + nameEnd name then none
  else some (name.take (nameEnd name))

section Names

variable {child : Bytes}

/-- The component is a name without NUL bytes and slashes, and the path with it is not too long. -/
theorem childName_some (hname : Spelled name) (h : childName path.length name = some child) :
    child ≠ [] ∧ (∀ b ∈ child, b ≠ 0 ∧ b < 0x80 ∧ b ≠ 0x2F) ∧
      path.length + 1 + child.length < MAX_PATH ∧ isDotName name = false ∧
      ∃ k, name = child ++ replicate (k + 1) 0 := by
  obtain ⟨body, k, rfl, hbody⟩ := hname
  rw [childName, nameEnd_body fun b hb => ⟨(hbody b hb).1, (hbody b hb).2.1⟩] at h
  split at h
  · cases h
  split at h
  · cases h
  split at h
  · cases h
  rename_i hdot hne hfits
  rw [take_left' rfl] at h
  obtain rfl := Option.some.inj h
  refine ⟨?_, hbody, Nat.not_le.mp hfits, Bool.eq_false_of_not_eq_true hdot, k, rfl⟩
  rintro rfl
  exact hne rfl

/-- What one round of the loop does with a name. -/
theorem childPath_eq (hpath : validUtf8 path = true) (hname : Spelled name)
    (hdot : isDotName name = false) :
    childPath path name = (childName path.length name).map (path ++ 0x2F :: ·) := by
  obtain ⟨body, k, rfl, hbody⟩ := hname
  have hvalid : validUtf8 (path ++ 0x2F :: body) = true := by
    apply validUtf8_append hpath
    apply validUtf8_ascii
    rw [forall_mem_cons]
    exact ⟨by decide, fun b hb => (hbody b hb).2.1⟩
  rw [childPath, childName, hdot, nameEnd_body fun b hb => ⟨(hbody b hb).1, (hbody b hb).2.1⟩]
  simp only [Bool.false_eq_true, if_false]
  split
  · rfl
  split
  · rfl
  rw [take_left' rfl, if_pos hvalid]
  rfl

end Names

/-! ## The sweep -/

/-- The clusters from `c` on, at most `n`. -/
def chainFrom (vol : FatVolume) (img : Image) : Nat → Nat → List Nat
  | 0, _ => []
  | n + 1, c =>
      if vol.Valid c then
        c :: if END_MARK ≤ img.next c then [] else chainFrom vol img n (img.next c)
      else []

/-- The slots of the directory from `c` on. -/
def slotsFrom (vol : FatVolume) (img : Image) (c : Nat) : List Slot :=
  vol.dirSlots (chainFrom vol img vol.maxCluster c)

/-- The slots that are gone after `remove_path` of a path of `len` bytes that leads to `name` in the
directory at `c`, when `gone` were before. Directories are nested at most `n` deep. -/
def sweep (vol : FatVolume) (img : Image) : Nat → Nat → Nat → Bytes → List Slot → List Slot
  | 0, _, _, _, gone => gone
  | n + 1, len, c, name, gone =>
      match scanDir img name (Pruned.rest gone (slotsFrom vol img c)) with
      | some (some p) =>
          if IsDirEntry (img.slot p) then
            -- the names of the directory that holds the entry, not of the one that it starts
            p :: ((entryNames img (Pruned.rest gone (slotsFrom vol img c))).filterMap
              (childName len)).foldl (fun gone child =>
                sweep vol img n (len + 1 + child.length) (startOf (img.slot p)) child gone) gone
          else p :: gone
      | _ => gone

theorem chainFrom_eq (hg : Geometry vol) (hl : img.Chain vol c l) (hn : l.length ≤ n) :
    chainFrom vol img n c = l := by
  induction hl generalizing n with
  | last hv hs =>
    obtain ⟨n, rfl⟩ : ∃ m, n = m + 1 := ⟨n - 1, by rw [length_singleton] at hn; omega⟩
    rw [chainFrom, if_pos hv, if_pos hs]
  | @link c l hv hrest ih =>
    rw [length_cons] at hn
    obtain ⟨n, rfl⟩ : ∃ m, n = m + 1 := ⟨n - 1, by omega⟩
    have hmore : ¬ END_MARK ≤ img.next c := Nat.not_le.mpr (hg.lt_end hrest.head_valid)
    rw [chainFrom, if_pos hv, if_neg hmore, ih (by omega)]

theorem slotsFrom_eq (hg : Geometry vol) (hl : img.Chain vol c l) :
    slotsFrom vol img c = vol.dirSlots l := by
  rw [slotsFrom, chainFrom_eq hg hl (chain_length_le hg hl)]

theorem slotsFrom_zero (vol : FatVolume) (img : Image) : slotsFrom vol img 0 = [] := by
  have hzero : ∀ n, chainFrom vol img n 0 = [] := by
    intro n
    cases n with
    | zero => rfl
    | succ n => exact if_neg fun h => absurd h.1 (by decide)
  rw [slotsFrom, hzero]
  rfl

/-! ## The names of a directory -/

/-- The names in the tree are ASCII and have no slash. -/
def PlainTree (vol : FatVolume) (img : Image) : Prop :=
  ∀ q, Owner.Live vol img (some q) → ∀ b ∈ decodedName (img.slot q), b < 0x80 ∧ b ≠ 0x2F

section Listed

variable {child : Bytes}

theorem decodedName_dot (h : IsDot e) : decodedName e = [0x2E] ∨ decodedName e = [0x2E, 0x2E] := by
  have hbyte : ∀ k < 11, e k = (nameBytes e).getD k 0 := by
    intro k hk
    rw [nameBytes, getD_eq_getElem _ _ (by rwa [length_map, length_range]),
      getElem_map, getElem_range]
  have h0 := hbyte 0 (by decide)
  have h1 := hbyte 1 (by decide)
  have h2 := hbyte 2 (by decide)
  have h8 := hbyte 8 (by decide)
  rcases h.2 with hd | hd
  · left
    rw [hd] at h0 h1 h8
    simp [decodedName, nameRun, h0, h1, h8]
  · right
    rw [hd] at h0 h1 h2 h8
    simp [decodedName, nameRun, h0, h1, h2, h8]

/-- What is listed comes from a live slot. -/
theorem mem_entryNames (h : name ∈ entryNames img S) :
    ∃ q ∈ S, LiveEntry (img.slot q) ∧ readDirEntryName (img.slot q) = some name := by
  obtain ⟨e, he, hname⟩ := mem_filterMap.mp h
  obtain ⟨he, hlive⟩ := mem_filter.mp he
  obtain ⟨q, hq, rfl⟩ := mem_map.mp ((takeWhile_sublist _).mem he)
  exact ⟨q, hq, of_decide_eq_true hlive, hname⟩

theorem entryNames_length_le (img : Image) (S : List Slot) :
    (entryNames img S).length ≤ S.length := by
  refine (length_filterMap_le _ _).trans ((length_filter_le _ _).trans ?_)
  exact (takeWhile_sublist _).length_le.trans (length_map _).le

/-- The names listed in a directory of the tree are `.`, `..` or spelled with ASCII bytes. -/
theorem listed_spelled (hplain : PlainTree vol img) (hc : DirCluster vol img c)
    (hl : img.Chain vol c l) (hS : S ⊆ vol.dirSlots l)
    (h : name ∈ entryNames img S) : isDotName name = true ∨ Spelled name := by
  obtain ⟨q, hq, hlive, hname⟩ := mem_entryNames h
  obtain ⟨hq1, hq2⟩ := mem_dirSlots.mp (hS hq)
  have hlen := decodedName_length_le (img.slot q)
  rw [readDirEntryName] at hname
  split at hname
  · cases hname
  obtain rfl := Option.some.inj hname
  by_cases hdot : IsDot (img.slot q)
  · left
    rcases decodedName_dot hdot with hd | hd
    · rw [hd]
      decide
    · rw [hd]
      decide
  · right
    refine ⟨decodedName (img.slot q), 12 - (decodedName (img.slot q)).length, ?_, ?_⟩
    · rw [show 12 - (decodedName (img.slot q)).length + 1 =
        13 - (decodedName (img.slot q)).length by omega]
    · intro b hb
      have hb' := hplain q ⟨hc.of_chain hl _ hq1, hq2, hlive, hdot⟩ b hb
      exact ⟨(decodedName_ne hb).2, hb'.1, hb'.2⟩

/-- A component that is not `.` or `..` selects none of the two. -/
theorem not_dot_of_startsWith (hne : child ≠ [])
    (hdot : isDotName (child ++ replicate (k + 1) 0) = false) (h : StartsWith child e) :
    ¬ IsDot e := by
  have hlower : ∀ b : UInt8, asciiLower b = 0x2E → b = 0x2E := by
    have hall : ∀ n < 256, asciiLower (UInt8.ofNat n) = 0x2E → UInt8.ofNat n = 0x2E := by
      decide +kernel
    intro b hb
    have h := hall b.toNat (UInt8.toNat_lt b)
    rw [UInt8.ofNat_toNat] at h
    exact h hb
  intro hd
  obtain ⟨b, rest, rfl⟩ := exists_cons_of_ne_nil hne
  rcases decodedName_dot hd with hname | hname
  · rw [StartsWith, hname, foldCase, foldCase, map_cons, map_cons, cons_prefix_cons] at h
    obtain rfl := hlower b h.1
    obtain rfl := map_eq_nil_iff.mp (prefix_nil.mp h.2)
    simp [isDotName] at hdot
  · rw [StartsWith, hname, foldCase, foldCase, map_cons, map_cons, cons_prefix_cons] at h
    obtain rfl := hlower b h.1
    cases rest with
    | nil => simp [isDotName] at hdot
    | cons b rest =>
      have h2 := h.2
      rw [map_cons, map_cons, cons_prefix_cons] at h2
      obtain rfl := hlower b h2.1
      obtain rfl := map_eq_nil_iff.mp (prefix_nil.mp h2.2)
      simp [isDotName] at hdot

end Listed

/-! ## The calls of the applet -/

variable {info : FileInfo}

/-- `f_unlink` of an entry of what is left. -/
theorem fUnlink_pruned (hg : Geometry vol) (hw : WellFormed vol img₀) (hs : Shows vol d img)
    (hp : Pruned vol img₀ img G) (hpath : PathTo vol img path c name) (hne : name ≠ [])
    (hsel : Selects vol img c name p) (hlive : Owner.Live vol img₀ (some p)) (hpG : p ∉ G) :
    ∃ d' img', fUnlink (some vol) path d = .ok () d' ∧ Shows vol d' img' ∧
      Pruned vol img₀ img' (p :: G) := by
  obtain ⟨hfind, hvalid⟩ := hsel.find hg hs.view_eq
  have hslot := hp.slots p hpG hlive.2.1
  have hother : ∀ q ∈ G, (some p : Owner) ≠ some q := by
    intro q hq heq
    exact hpG (Option.some.inj heq ▸ hq)
  have hheads : startOf (img.slot p) = 0 ∨ ∃ l, img.Chain vol (startOf (img.slot p)) l := by
    rw [hslot]
    exact (hw.heads _ hlive).imp_right fun ⟨l, hl⟩ => ⟨l, (hp.chain_iff hg hw hlive hother).mpr hl⟩
  obtain ⟨d', img', hrun, hs', hun⟩ := unlinkAt_ok hg hs hvalid hlive.2.1 hheads
  refine ⟨d', img', ?_, hs', hp.unlink hg hw hlive hpG hun⟩
  rw [fUnlink, withVol, Op.bind_ok (hpath.resolve hg hs.view_eq)]
  simp only [if_neg hne]
  rw [withEntry_some _ hfind]
  exact hrun

theorem unlinkPath_ok (h : fUnlink (some vol) path t.dev = .ok () d) :
    unlinkPath (some vol) force path t = .ok () { t with dev := d } := by
  rw [unlinkPath, Op.bind_ok (attempt_ok h)]
  rfl

/-- A path that leads nowhere. -/
theorem removePath_missing {e : FError} (h : fStat (some vol) path t.dev = .err e t.dev) :
    ∃ t', removePath (some vol) true force (n + 1) path t = .ok () t' ∧ t'.dev = t.dev := by
  rw [removePath, Op.bind_ok (attempt_err h)]
  cases force with
  | true => exact ⟨t, rfl, rfl⟩
  | false => exact ⟨_, rfl, rfl⟩

/-- A file. -/
theorem removePath_file (hstat : fStat (some vol) path t.dev = .ok info t.dev)
    (hattr : ¬ info.attributes &&& 0x10 ≠ 0) (hunlink : fUnlink (some vol) path t.dev = .ok () d) :
    removePath (some vol) true force (n + 1) path t = .ok () { t with dev := d } := by
  rw [removePath, Op.bind_ok (attempt_ok hstat)]
  simp only [if_neg hattr]
  exact unlinkPath_ok hunlink

/-- A directory. -/
theorem removePath_dir {t₁ : Terminal Disk}
    (hstat : fStat (some vol) path t.dev = .ok info t.dev) (hattr : info.attributes &&& 0x10 ≠ 0)
    (hopen : fOpendir (some vol) path t.dev = .ok dir t.dev)
    (hloop : Op.loopM (removeStep (some vol) force path (removePath (some vol) true force n))
      LOOP_BOUND dir t = .ok () t₁)
    (hunlink : fUnlink (some vol) path t₁.dev = .ok () d) :
    removePath (some vol) true force (n + 1) path t = .ok () { t₁ with dev := d } := by
  rw [removePath, Op.bind_ok (attempt_ok hstat)]
  simp only [if_pos hattr, if_true]
  refine (Op.bind_ok (attempt_ok hopen)).trans ?_
  exact (Op.bind_ok hloop).trans (unlinkPath_ok hunlink)

/-- The handle that `f_opendir` returns. -/
def openedDir (c : Nat) : Dir := ⟨c, c, 0, 0, false, replicate 11 0, 0⟩

theorem fOpendir_run (hg : Geometry vol) (hv : view vol d = img)
    (hpath : PathTo vol img path c name) : fOpendir (some vol) path d = .ok (openedDir c) d := by
  rw [fOpendir, withVol, Op.bind_ok (hpath.resolve hg hv)]
  rfl

/-- A handle stays where it is while its chain does. -/
theorem dirOn_of_chain {d' : Disk} (h : DirOn vol d c dir ps)
    (hl : vol.ChainOn d c l) (hl' : vol.ChainOn d' c l) : DirOn vol d' c dir ps := by
  cases h with
  | ended hended => exact .ended hended
  | @within front rest hopen hchain hi =>
    obtain rfl := hchain.unique (fun x hx => Nat.not_le.mpr hx) hl
    exact .within hopen hl' hi

/-! ## The loop over the names -/

/-- The device shows the tree without the slots `G` and without `G'`, which lie below the entry
`p`. -/
def Sweeping (vol : FatVolume) (img₀ : Image) (G : List Slot) (p : Slot) (d : Disk)
    (G' : List Slot) : Prop :=
  (∃ img, Shows vol d img ∧ Pruned vol img₀ img (G' ++ G)) ∧ ∀ q ∈ G', Below vol img₀ p q

section Loop

variable (hg : Geometry vol) (hw : WellFormed vol img₀) (hc : Standing vol img₀ G k c)
  (hl : img₀.Chain vol c l)
include hg hw hc hl

/-- What a handle still lists does not depend on what was removed below the entry. -/
theorem selected_eq (hdeep : ∀ q, Below vol img₀ p q → ∃ i, k < i ∧ SlotAt vol img₀ i q)
    (hat : Sweeping vol img₀ G p d G') (hon : DirOn vol d c dir ps)
    (hselect : dir.select = (openedDir c).select) : vol.ChainOn d c l ∧
      dir.selected (vol.imageOn d) ps = entryNames img₀ (Pruned.rest G ps) := by
  obtain ⟨⟨img, hs, hp⟩, hbelow⟩ := hat
  have hdeep' : ∀ q ∈ G', ∃ i, k < i ∧ SlotAt vol img₀ i q := fun q hq => hdeep q (hbelow q hq)
  have hl' := ((hc.append hg hw le_rfl hdeep').chain_iff hg hw hp).mpr hl
  have hchain := hl'.on hg hs.view_eq
  have hsub := dirOn_subset hon hchain
  have hslots : ps.map (vol.imageOn d).slot = ps.map img.slot := by
    refine map_congr_left fun q hq => ?_
    have hvalid := hl'.valid_of_mem (mem_dirSlots.mp (hsub hq)).1
    exact congrArg (entryAt · q.2) (clusterOn_eq hg hs.view_eq hvalid)
  refine ⟨hchain, ?_⟩
  rw [Dir.selected, hslots, hselect, ← entryNames_eq,
    hp.entryNames_eq fun q hq => dirSlots_index q (hsub hq),
    hc.rest_append hg hw hl le_rfl hdeep' hsub]
  exact filter_eq_self.mpr fun _ _ => rfl

/-- **The loop of `remove_path`** removes what the sweep of every name removes. `remove` stands for
the recursive call, `swept` for the sweep of a component. -/
theorem removeLoop_sweeps (hdeep : ∀ q, Below vol img₀ p q → ∃ i, k < i ∧ SlotAt vol img₀ i q)
    (hpath : validUtf8 path = true) {remove : Bytes → TermOp Disk Unit}
    {swept : Bytes → List Slot → List Slot}
    (hremove : ∀ name child t G', Spelled name → childName path.length name = some child →
      Sweeping vol img₀ G p t.dev G' →
      ∃ t' G'', remove (path ++ 0x2F :: child) t = .ok () t' ∧
        Sweeping vol img₀ G p t'.dev G'' ∧ swept child (G' ++ G) = G'' ++ G)
    {m : Nat} {names : List Bytes}
    (hat : Sweeping vol img₀ G p t.dev G') (hon : DirOn vol t.dev c dir ps)
    (hselect : dir.select = (openedDir c).select)
    (hnames : entryNames img₀ (Pruned.rest G ps) = names)
    (hspelled : ∀ name ∈ names, isDotName name = true ∨ Spelled name) (hm : names.length < m) :
    ∃ t' G'', Op.loopM (removeStep (some vol) force path remove) m dir t = .ok () t' ∧
      Sweeping vol img₀ G p t'.dev G'' ∧
      (names.filterMap (childName path.length)).foldl (fun gone child => swept child gone)
      (G' ++ G) =
        G'' ++ G := by
  have hpos := slotsPerCluster_pos hg
  have hsmall : vol.slotsPerCluster < 2 ^ 16 := (slotsPerCluster_le hg).trans_lt (by norm_num)
  induction m generalizing names dir ps t G' with
  | zero => exact absurd hm (Nat.not_lt_zero _)
  | succ m ih =>
    obtain ⟨hchain, hsel⟩ := selected_eq hg hw hc hl hdeep hat hon hselect
    have hpat : ∀ n ∈ slotNames (ps.map (vol.imageOn t.dev).slot), dir.select n ≠ none := by
      intro n _
      rw [hselect]
      exact Option.some_ne_none _
    obtain ⟨dir', ps', hread, hon', hselect', htail, -⟩ := fReaddir_selected hpos hsmall hon hpat
    rw [hselect] at hselect'
    obtain ⟨-, hsel'⟩ := selected_eq hg hw hc hl hdeep hat hon' hselect'
    have hrest : entryNames img₀ (Pruned.rest G ps') = names.tail := by
      rw [← hsel', ← hnames, ← hsel, ← htail, Dir.selected, Dir.selected, hselect, hselect']
    rw [hsel, hnames] at hread
    have hattempt := attemptReaddir_ok (t := t) hread
    cases names with
    | nil =>
      -- the listing has ended
      refine ⟨t, G', ?_, hat, rfl⟩
      have hround : removeStep (some vol) force path remove dir t = .ok (.done ()) t := by
        rw [removeStep]
        exact (Op.bind_ok hattempt).trans rfl
      exact Op.loopM_done hround
    | cons name names =>
      rw [forall_mem_cons] at hspelled
      rw [length_cons] at hm
      rw [tail_cons] at hrest
      rw [filterMap_cons]
      -- the rest of the loop, after a round that went on
      have hgo : ∀ {t₁ : Terminal Disk} {G₁ : List Slot}, Sweeping vol img₀ G p t₁.dev G₁ →
          removeStep (some vol) force path remove dir t = .ok (.next dir') t₁ →
          ∃ t' G'', Op.loopM (removeStep (some vol) force path remove) (m + 1) dir t = .ok () t' ∧
            Sweeping vol img₀ G p t'.dev G'' ∧
            (names.filterMap (childName path.length)).foldl (fun gone child => swept child gone)
              (G₁ ++ G) = G'' ++ G := by
        intro t₁ G₁ hat₁ hround
        obtain ⟨hchain₁, -⟩ := selected_eq hg hw hc hl hdeep hat₁ (.ended rfl : DirOn vol t₁.dev c
          { openedDir c with ended := true } []) rfl
        obtain ⟨t', G'', hrun, hat', hfold⟩ := ih hat₁ (dirOn_of_chain hon' hchain hchain₁) hselect'
          hrest hspelled.2 (by omega)
        refine ⟨t', G'', ?_, hat', hfold⟩
        exact (Op.loopM_next hround).trans hrun
      rcases Bool.eq_false_or_eq_true (isDotName name) with hdot | hdot
      · have hnone : childName path.length name = none := by rw [childName, if_pos hdot]
        rw [hnone]
        refine hgo hat ?_
        rw [removeStep]
        refine (Op.bind_ok hattempt).trans ?_
        simp only [head?_cons, hdot, if_true]
        rfl
      · have hname : Spelled name := hspelled.1.resolve_left (by rw [hdot]; decide)
        have hchild := childPath_eq hpath hname hdot
        cases hcase : childName path.length name with
        | none =>
          rw [hcase] at hchild
          refine hgo hat ?_
          rw [removeStep]
          refine (Op.bind_ok hattempt).trans ?_
          simp only [head?_cons, hdot, Bool.false_eq_true, if_false, hchild, Option.map_none]
          rfl
        | some child =>
          rw [hcase] at hchild
          obtain ⟨t₁, G₁, hrun, hat₁, hswept⟩ := hremove name child t G' hname hcase hat
          rw [foldl_cons, hswept]
          refine hgo hat₁ ?_
          rw [removeStep]
          refine (Op.bind_ok hattempt).trans ?_
          simp only [head?_cons, hdot, Bool.false_eq_true, if_false, hchild, Option.map_some]
          exact (Op.bind_ok hrun).trans rfl

end Loop

/-! ## The whole run -/

section Lookups

variable {d₁ : Disk}

/-- The path still leads to the entry while entries below it are removed. -/
theorem Sweeping.still (hg : Geometry vol) (hw : WellFormed vol img₀) (hp : Pruned vol img₀ img G)
    (hc : Standing vol img₀ G k c) (hl : img₀.Chain vol c l)
    (hdeep : ∀ q, Below vol img₀ p q → ∃ i, k < i ∧ SlotAt vol img₀ i q)
    (hpath : PathTo vol img path c name) (hsel : Selects vol img c name p)
    (hat : Sweeping vol img₀ G p d₁ G') : ∃ img₁, Shows vol d₁ img₁ ∧
      Pruned vol img₀ img₁ (G' ++ G) ∧ PathTo vol img₁ path c name ∧ Selects vol img₁ c name p ∧
      p ∉ G' ++ G ∧ img₁.slot p = img₀.slot p ∧ Standing vol img₀ (G' ++ G) k c := by
  obtain ⟨⟨img₁, hs₁, hp₁⟩, hbelow⟩ := hat
  have hdeep' : ∀ q ∈ G', ∃ i, k < i ∧ SlotAt vol img₀ i q := fun q hq => hdeep q (hbelow q hq)
  have hc₁ := hc.append hg hw le_rfl hdeep'
  have hscan := (hc.selects_iff hg hw hp hl).mp hsel
  rw [← hc.rest_append hg hw hl le_rfl hdeep' (List.Subset.refl _)] at hscan
  have hsel₁ := (hc₁.selects_iff hg hw hp₁ hl).mpr hscan
  obtain ⟨-, -, -, hpG, hslot, -⟩ := hc₁.selects_mem hg hw hp₁ hsel₁
  exact ⟨img₁, hs₁, hp₁, hpath.pruned hg hw hp hp₁ hdeep' hc.1, hsel₁, hpG, hslot, hc₁⟩

/-- What is selected in a directory is one of its slots. -/
theorem scan_inside (hg : Geometry vol) (hw : WellFormed vol img₀)
    (hlive : Owner.Live vol img₀ (some p)) {r : Slot}
    (h : scanDir img₀ name (Pruned.rest S (slotsFrom vol img₀ (startOf (img₀.slot p)))) =
      some (some r)) : Inside vol img₀ p r := by
  obtain ⟨pre, post, hslots, -, -⟩ := scanDir_found h
  have hr : r ∈ slotsFrom vol img₀ (startOf (img₀.slot p)) :=
    mem_of_mem_filter (mem_iff_append.mpr ⟨_, _, hslots⟩)
  rcases hw.heads _ hlive with h0 | ⟨m, hm⟩
  · rw [show startOf (img₀.slot p) = 0 from h0, slotsFrom_zero] at hr
    cases hr
  · exact ⟨m, hm, slotsFrom_eq hg hm ▸ hr⟩

end Lookups

/-- A path that leads to `name` in the directory at `c`, on a device that shows the tree without the
slots `G`. The lookup of the name neither panics nor stops at `.` or `..`. -/
structure Aimed (vol : FatVolume) (img₀ img : Image) (G : List Slot) (path : Bytes) (c : Nat)
    (name : Bytes) : Prop where
  pruned : Pruned vol img₀ img G
  leads : PathTo vol img path c name
  named : name ≠ []
  scans : scanDir img₀ name (Pruned.rest G (slotsFrom vol img₀ c)) ≠ none
  utf8 : validUtf8 path = true
  place : c = 0 ∨ ∃ k, Standing vol img₀ G k c
  noDot : ∀ r, Selects vol img c name r → ¬ IsDot (img.slot r)

/-- `remove_path`, with at most `N` calls inside of each other, removes what a sweep of depth `n`
reaches: the entry that the name selects, and slots below it. -/
def Swept (vol : FatVolume) (img₀ : Image) (force : Bool) (N n : Nat) (G : List Slot)
    (path : Bytes) (c : Nat) (name : Bytes) (t : Terminal Disk) : Prop :=
  ∃ t' img' G', removePath (some vol) true force N path t = .ok () t' ∧
    Shows vol t'.dev img' ∧ Pruned vol img₀ img' (G' ++ G) ∧
    sweep vol img₀ n path.length c name G = G' ++ G ∧
    ∀ q ∈ G', ∃ r, scanDir img₀ name (Pruned.rest G (slotsFrom vol img₀ c)) = some (some r) ∧
      (q = r ∨ Subdirectory (img₀.slot r) ∧ Below vol img₀ r q)

section Run

variable {N : Nat}

/-- Without an entry nothing happens. -/
theorem Aimed.swept_missing (hg : Geometry vol) (h : Aimed vol img₀ img G path c name)
    (hs : Shows vol t.dev img) (hfind : vol.findEntryInDir c name t.dev = .ok none t.dev)
    (hscan : scanDir img₀ name (Pruned.rest G (slotsFrom vol img₀ c)) = some none) :
    Swept vol img₀ force (N + 1) (n + 1) G path c name t := by
  obtain ⟨t', hrun, hdev⟩ :
      ∃ t', removePath (some vol) true force (N + 1) path t = .ok () t' ∧ t'.dev = t.dev :=
    removePath_missing (fStat_missing (h.leads.resolve hg hs.view_eq) h.named hfind)
  refine ⟨t', img, [], hrun, hdev ▸ hs, h.pruned, ?_, forall_mem_nil _⟩
  rw [sweep, hscan]
  rfl

/-- A component that the loop appends leads into the directory that the entry starts. -/
theorem Aimed.child (hg : Geometry vol) (hw : WellFormed vol img₀)
    (hp : Pruned vol img₀ img G) (hpath : PathTo vol img path c name) (hne : name ≠ [])
    (hvalid : validUtf8 path = true) (hsel : Selects vol img c name p)
    (hslot : img.slot p = img₀.slot p) (hsub : Subdirectory (img₀.slot p))
    (hown : Owner.Live vol img₀ (some p)) (hc : Standing vol img₀ G k c)
    (hl : img₀.Chain vol c l) (hmem : p ∈ vol.dirSlots l) (hpG : p ∉ G) {entry child : Bytes}
    (hentry : Spelled entry) (hchild : childName path.length entry = some child) :
    Aimed vol img₀ img G (path ++ 0x2F :: child) (startOf (img₀.slot p)) child := by
  obtain ⟨hchildne, hbytes, -, hentrydot, z, rfl⟩ := childName_some hentry hchild
  have hslash : (0x2F : UInt8) ∉ child := fun hb => (hbytes _ hb).2.2 rfl
  have hnul : (0 : UInt8) ∉ child := fun hb => (hbytes _ hb).1 rfl
  refine ⟨hp, ?_, hchildne, scanDir_ne_none hchildne hnul _, ?_, ?_, ?_⟩
  · rw [← hslot]
    exact hpath.child hne hsel (hslot ▸ hsub) hslash
  · apply validUtf8_append hvalid
    apply validUtf8_ascii
    rw [forall_mem_cons]
    exact ⟨by decide, fun b hb => (hbytes b hb).2.1⟩
  · exact (hw.heads _ hown).imp_right fun ⟨m, hm⟩ =>
      ⟨k + 1, hc.child hg hl hmem hpG hsub hm.head_valid⟩
  · rintro r ⟨-, -, -, -, -, -, hhit⟩
    refine not_dot_of_startsWith hchildne hentrydot ?_
    rw [checkSlot_eq hchildne hnul] at hhit
    split_ifs at hhit with _ _ hstarts
    exact hstarts.2

variable (hg : Geometry vol) (hw : WellFormed vol img₀)
include hg hw

/-- What the call for a component removes lies below the entry. -/
theorem Swept.sweeping (hown : Owner.Live vol img₀ (some p)) {G₁ : List Slot} {child : Bytes}
    (hbelow : ∀ q ∈ G₁, Below vol img₀ p q)
    (h : Swept vol img₀ force N n (G₁ ++ G) path (startOf (img₀.slot p)) child t) :
    ∃ t' G₂, removePath (some vol) true force N path t = .ok () t' ∧
      Sweeping vol img₀ G p t'.dev G₂ ∧
      sweep vol img₀ n path.length (startOf (img₀.slot p)) child (G₁ ++ G) = G₂ ++ G := by
  obtain ⟨t', img', G₂, hrun, hs', hp', hsweep, hreach⟩ := h
  rw [← append_assoc] at hp' hsweep
  refine ⟨t', G₂ ++ G₁, hrun, ⟨⟨img', hs', hp'⟩, ?_⟩, hsweep⟩
  intro q hq
  rcases mem_append.mp hq with hq | hq
  · obtain ⟨r, hr, hqr⟩ := hreach q hq
    have hinside := scan_inside hg hw hown hr
    rcases hqr with rfl | ⟨hrsub, hqr⟩
    · exact .child hinside
    · exact (Below.child hinside).trans hrsub hqr
  · exact hbelow q hq

/-- **`remove_path` of a directory**, when the calls inside of it remove what their sweeps reach. -/
theorem Aimed.swept_dir (hplain : PlainTree vol img₀) (h : Aimed vol img₀ img G path c name)
    (hs : Shows vol t.dev img) (hc : Standing vol img₀ G k c) (hl : img₀.Chain vol c l)
    (hscan : scanDir img₀ name (Pruned.rest G (vol.dirSlots l)) = some (some p))
    (hsub : Subdirectory (img₀.slot p)) (hlong : MAX_PATH ≤ n + 1 + path.length)
    (ih : ∀ {path₁ child : Bytes} {c₁ : Nat} {G₁ : List Slot} {img₁ : Image}
      {t₁ : Terminal Disk}, Aimed vol img₀ img₁ G₁ path₁ c₁ child → Shows vol t₁.dev img₁ → 0 < n →
        MAX_PATH ≤ n + path₁.length → Swept vol img₀ force N n G₁ path₁ c₁ child t₁) :
    Swept vol img₀ force (N + 1) (n + 1) G path c name t := by
  have hsel : Selects vol img c name p := (hc.selects_iff hg hw h.pruned hl).mpr hscan
  obtain ⟨l₁, hl₁, hmem, -, hslot, -⟩ := hc.selects_mem hg hw h.pruned hsel
  obtain rfl := hl₁.unique hg.not_stop hl
  have hat : SlotAt vol img₀ k p := ⟨c, l₁, hc.1, hl, hmem⟩
  have hown : Owner.Live vol img₀ (some p) := hat.owner hg hsub.1 hsub.2.2
  have hdeep : ∀ q, Below vol img₀ p q → ∃ i, k < i ∧ SlotAt vol img₀ i q :=
    fun q hq => hq.slotAt hat hsub
  obtain ⟨info, hstat, hattr, -⟩ := fStat_selected hg hs.view_eq h.leads h.named hsel
  have hdirattr : info.attributes &&& 0x10 ≠ 0 := by
    rw [hattr, hslot]
    exact hsub.2.1
  -- the recursive call for a component, in the directory that the entry starts
  have hremove : ∀ entry child (t₁ : Terminal Disk) (G₁ : List Slot), Spelled entry →
      childName path.length entry = some child → Sweeping vol img₀ G p t₁.dev G₁ →
      ∃ t' G₂, removePath (some vol) true force N (path ++ 0x2F :: child) t₁ = .ok () t' ∧
        Sweeping vol img₀ G p t'.dev G₂ ∧
        sweep vol img₀ n (path.length + 1 + child.length) (startOf (img₀.slot p)) child
          (G₁ ++ G) = G₂ ++ G := by
    intro entry child t₁ G₁ hentry hchild hat₁
    obtain ⟨hchildne, -, hfits, -⟩ := childName_some hentry hchild
    obtain ⟨img₁, hs₁, hp₁, hpath₁, hsel₁, hpG₁, hslot₁, hc₁⟩ :=
      hat₁.still hg hw h.pruned hc hl hdeep h.leads hsel
    have haimed := Aimed.child hg hw hp₁ hpath₁ h.named h.utf8 hsel₁ hslot₁ hsub hown hc₁ hl hmem
      hpG₁ hentry hchild
    have hlen : (path ++ 0x2F :: child).length = path.length + 1 + child.length := by
      rw [length_append, length_cons]
      omega
    have hpositive := length_pos_iff.mpr hchildne
    rw [← hlen]
    exact (ih haimed hs₁ (by omega) (by omega)).sweeping hg hw hown hat₁.2
  have hnames : ∀ entry ∈ entryNames img₀ (Pruned.rest G (vol.dirSlots l₁)),
      isDotName entry = true ∨ Spelled entry := fun entry hentry =>
    listed_spelled hplain (hc.1.dirHead hg).dirCluster hl (fun _ hq => mem_of_mem_filter hq)
      hentry
  have hon : DirOn vol t.dev c (openedDir c) (vol.dirSlots l₁) :=
    .first (((hc.chain_iff hg hw h.pruned).mpr hl).on hg hs.view_eq) rfl rfl rfl
  have hcount : (entryNames img₀ (Pruned.rest G (vol.dirSlots l₁))).length < LOOP_BOUND := by
    have hsmall : vol.slotsPerCluster < 2 ^ 16 := (slotsPerCluster_le hg).trans_lt (by norm_num)
    exact (entryNames_length_le _ _).trans_lt
      ((length_filter_le _ _).trans_lt (hon.length_lt hsmall))
  have hstart : Sweeping vol img₀ G p t.dev [] := ⟨⟨img, hs, h.pruned⟩, forall_mem_nil _⟩
  obtain ⟨t₁, G₁, hloop, hat₁, hfold⟩ :=
    removeLoop_sweeps hg hw hc hl hdeep h.utf8 hremove hstart hon rfl rfl hnames hcount
  -- the entry is still there, and `f_unlink` removes it
  obtain ⟨img₁, hs₁, hp₁, hpath₁, hsel₁, hpG₁, -, -⟩ :=
    hat₁.still hg hw h.pruned hc hl hdeep h.leads hsel
  obtain ⟨d', img', hrun, hs', hp'⟩ :=
    fUnlink_pruned hg hw hs₁ hp₁ hpath₁ h.named hsel₁ hown hpG₁
  refine ⟨{ t₁ with dev := d' }, img', p :: G₁, removePath_dir hstat hdirattr
    (fOpendir_run hg hs.view_eq h.leads) hloop hrun, hs', hp', ?_, ?_⟩
  · rw [nil_append] at hfold
    rw [sweep, slotsFrom_eq hg hl, hscan]
    simp only
    rw [if_pos hsub.2.1, hfold]
    rfl
  · intro q hq
    refine ⟨p, slotsFrom_eq hg hl ▸ hscan, ?_⟩
    rcases mem_cons.mp hq with rfl | hq
    · exact .inl rfl
    · exact .inr ⟨hsub, hat₁.2 q hq⟩

/-- **`remove_path` removes what the sweep reaches**, and nothing else. -/
theorem removePath_sweeps (hplain : PlainTree vol img₀) (hN : n ≤ N)
    (h : Aimed vol img₀ img G path c name) (hs : Shows vol t.dev img) (hn : 0 < n)
    (hlong : MAX_PATH ≤ n + path.length) :
    Swept vol img₀ force N n G path c name t := by
  -- every level makes the path longer, so that its length bounds the depth
  induction n generalizing N path name c G img t with
  | zero => exact absurd hn (Nat.lt_irrefl 0)
  | succ n ih =>
    obtain ⟨N, rfl⟩ : ∃ m, N = m + 1 := ⟨N - 1, by omega⟩
    rcases h.place with rfl | ⟨k, hc⟩
    · refine h.swept_missing hg hs (findEntryInDir_zero vol name _) ?_
      rw [slotsFrom_zero]
      rfl
    obtain ⟨l, hl⟩ := hw.treeOk hg c (hc.1.dirHead hg).dirCluster
    have hl' := (hc.chain_iff hg hw h.pruned).mpr hl
    have hslots := slotsFrom_eq hg hl
    rcases hscan : scanDir img₀ name (Pruned.rest G (vol.dirSlots l)) with _ | _ | p
    · exact absurd hscan (hslots ▸ h.scans)
    · refine h.swept_missing hg hs ?_ (hslots ▸ hscan)
      rw [findEntryInDir_eq hg hs.view_eq hl', h.pruned.scanDir_eq name dirSlots_index, hscan]
      rfl
    have hsel : Selects vol img c name p := (hc.selects_iff hg hw h.pruned hl).mpr hscan
    obtain ⟨l₁, hl₁, hmem, hpG, hslot, hlive⟩ := hc.selects_mem hg hw h.pruned hsel
    have hnotdot : ¬ IsDot (img₀.slot p) := hslot ▸ h.noDot p hsel
    by_cases hdir : IsDirEntry (img₀.slot p)
    · exact h.swept_dir hg hw hplain hs hc hl hscan ⟨hlive, hdir, hnotdot⟩ hlong (ih (by omega))
    · have hat : SlotAt vol img₀ k p := ⟨c, l₁, hc.1, hl₁, hmem⟩
      obtain ⟨info, hstat, hattr, -⟩ := fStat_selected hg hs.view_eq h.leads h.named hsel
      have hfile : ¬ info.attributes &&& 0x10 ≠ 0 := by
        rw [hattr, hslot]
        exact hdir
      obtain ⟨d', img', hrun, hs', hp'⟩ :=
        fUnlink_pruned hg hw hs h.pruned h.leads h.named hsel (hat.owner hg hlive hnotdot) hpG
      refine ⟨{ t with dev := d' }, img', [p], removePath_file hstat hfile hrun, hs', hp', ?_, ?_⟩
      · rw [sweep, hslots, hscan]
        simp only
        rw [if_neg hdir]
        rfl
      · intro q hq
        obtain rfl := mem_singleton.mp hq
        exact ⟨q, hslots ▸ hscan, .inl rfl⟩

end Run

/-! ## When the subtree is removed -/

/-- The entry in slot `s` and everything below it is gone, and everything else is as it was: the
other slots, and the table entries and the data of the other clusters. The cluster that holds the
slot itself is covered by its slots. -/
structure TreeRemoved (vol : FatVolume) (img : Image) (s : Slot) (img' : Image) : Prop where
  gone : ¬ LiveEntry (img'.slot s)
  freed : ∀ q x, q = s ∨ Below vol img s q → Owner.Live vol img (some q) →
    Owner.Holds vol img (some q) x → img'.next x = 0
  slots : ∀ q, q ≠ s → ¬ Below vol img s q → q.2 < vol.slotsPerCluster → img'.slot q = img.slot q
  clusters : ∀ x, (∀ q, q = s ∨ Below vol img s q → Owner.Live vol img (some q) →
    ¬ Owner.Holds vol img (some q) x) →
      img'.fat x = img.fat x ∧ (x ≠ s.1 → img'.data x = img.data x)

/-- Every entry below `s` that has clusters is among the slots. -/
def Reaches (vol : FatVolume) (img : Image) (s : Slot) (slots : List Slot) : Prop :=
  ∀ q, Below vol img s q → Owner.Live vol img (some q) → startOf (img.slot q) ≠ 0 → q ∈ slots

section Removed

variable {s q : Slot}

/-- The entry that the path leads to is reached. -/
theorem mem_sweep {len : Nat} {gone : List Slot}
    (h : scanDir img₀ name (Pruned.rest gone (slotsFrom vol img₀ c)) = some (some s)) :
    s ∈ sweep vol img₀ (n + 1) len c name gone := by
  rw [sweep, h]
  simp only
  split_ifs <;> exact mem_cons_self

/-- A slot below an entry lies in a cluster of the subtree. -/
theorem below_held (hg : Geometry vol) (hs : SlotAt vol img₀ k s)
    (hsub : Subdirectory (img₀.slot s))
    (h : Below vol img₀ s q) : ∃ r, (r = s ∨ Below vol img₀ s r) ∧ Owner.Live vol img₀ (some r) ∧
      Owner.Holds vol img₀ (some r) q.1 := by
  cases h with
  | child h =>
    obtain ⟨l, hl, hq⟩ := h
    exact ⟨s, .inl rfl, hs.owner hg hsub.1 hsub.2.2, l, hl, (mem_dirSlots.mp hq).1⟩
  | @deep r _ hr hrsub hq =>
    obtain ⟨l, hl, hq⟩ := hq
    obtain ⟨j, -, hj⟩ := hr.slotAt hs hsub
    exact ⟨r, .inr hr, hj.owner hg hrsub.1 hrsub.2.2, l, hl, (mem_dirSlots.mp hq).1⟩

/-- **Removing some entries of a subtree** with its root removes the subtree when no other one has a
cluster, and only then. -/
theorem treeRemoved_iff (hg : Geometry vol) (hw : WellFormed vol img₀)
    (h : Pruned vol img₀ img G) (hat : SlotAt vol img₀ k s) (hsub : Subdirectory (img₀.slot s))
    (hs : s ∈ G) (hG : ∀ q ∈ G, q = s ∨ Below vol img₀ s q) :
    TreeRemoved vol img₀ s img ↔ Reaches vol img₀ s G := by
  constructor
  · intro hrem q hbelow hlive hstart
    by_contra hq
    obtain ⟨l, hl⟩ := (hw.heads _ hlive).resolve_left hstart
    have hholds : Owner.Holds vol img₀ (some q) (startOf (img₀.slot q)) := ⟨l, hl, hl.head_mem⟩
    have hother : ∀ r ∈ G, (some q : Owner) ≠ some r := by
      intro r hr heq
      exact hq (Option.some.inj heq ▸ hr)
    have hfree := hrem.freed q _ (.inr hbelow) hlive hholds
    rw [h.next_eq hw hlive hother hholds] at hfree
    exact chain_next_ne_zero hl hl.head_mem hfree
  · intro hreach
    refine ⟨fun hlive => hlive.2.2 (h.deleted s hs), ?_, ?_, ?_⟩
    · rintro q x (rfl | hbelow) hlive hholds
      · exact h.freed q hs x hholds
      · refine h.freed q (hreach q hbelow hlive ?_) x hholds
        obtain ⟨l, hl, -⟩ := hholds
        have hvalid : 2 ≤ startOf (img₀.slot q) := hl.head_valid.1
        omega
    · intro q hne hnot hi
      exact h.slots q (fun hq => (hG q hq).elim hne hnot) hi
    · intro x hx
      refine ⟨h.table x fun q hq => hx q (hG q hq) (h.owners q hq), fun hxs => h.data x ?_⟩
      intro q hq hqx
      rcases hG q hq with rfl | hbelow
      · exact hxs hqx.symm
      · obtain ⟨r, hr, hlive, hholds⟩ := below_held hg hat hsub hbelow
        exact hx r hr hlive (hqx ▸ hholds)

/-- **When `rm -r` removes a directory with everything in it.** The path leads to the subdirectory
in slot `s`. The call returns, and the subtree is gone, with nothing else changed, exactly when the
sweep reaches every entry below the directory that has clusters. -/
theorem rm_removes_tree_iff (vol : FatVolume) (d : Disk) (path name : Bytes) (c : Nat) (s : Slot)
    (force : Bool) (display : List Piece) (hg : Geometry vol) (hm : Mirrored vol d)
    (hw : WellFormed vol (view vol d)) (hplain : PlainTree vol (view vol d))
    (hvalid : validUtf8 path = true) (hpath : PathTo vol (view vol d) path c name) (hne : name ≠ [])
    (hsel : Selects vol (view vol d) c name s) (hdir : Subdirectory ((view vol d).slot s)) :
    ∃ t, removePath (some vol) true force LOOP_BOUND path ⟨d, display⟩ = .ok () t ∧
      (TreeRemoved vol (view vol d) s (view vol t.dev) ↔
        Reaches vol (view vol d) s (sweep vol (view vol d) MAX_PATH path.length c name [])) := by
  have hnil : Pruned vol (view vol d) (view vol d) [] := .nil vol _
  obtain ⟨l, pre, post, hl, hslots, hskip, hhit⟩ := id hsel
  have hmem := mem_iff_append.mpr ⟨_, _, hslots⟩
  -- the directory that holds the entry has a depth
  obtain ⟨k, hc⟩ : ∃ k, Standing vol (view vol d) [] k c := by
    obtain ⟨parents, -, hleads⟩ := id hpath
    have hnone : ∀ q ∈ ([] : List Slot), ∃ i, 0 < i ∧ SlotAt vol (view vol d) i q :=
      forall_mem_nil _
    have hsame : Pruned vol (view vol d) (view vol d) ([] ++ []) := hnil
    obtain ⟨m, -, hm, -⟩ :=
      hleads.pruned hg hw hnil hsame hnone hl.head_valid (.root vol _ [])
    exact ⟨m, hm⟩
  have hat : SlotAt vol (view vol d) k s := ⟨c, l, hc.1, hl, hmem⟩
  have hscan : scanDir (view vol d) name (Pruned.rest [] (slotsFrom vol (view vol d) c)) =
      some (some s) := by
    rw [slotsFrom_eq hg hl]
    exact (hc.selects_iff hg hw hnil hl).mp hsel
  have hdot : ∀ r, Selects vol (view vol d) c name r → ¬ IsDot ((view vol d).slot r) := by
    intro r hr
    obtain rfl :=
      Option.some.inj (Option.some.inj (((hc.selects_iff hg hw hnil hl).mp hr).symm.trans
      ((hc.selects_iff hg hw hnil hl).mp hsel)))
    exact hdir.2.2
  have hbound : MAX_PATH ≤ LOOP_BOUND := by
    rw [MAX_PATH, LOOP_BOUND]
    norm_num
  have hscans :
      scanDir (view vol d) name (Pruned.rest [] (slotsFrom vol (view vol d) c)) ≠ none := by
    rw [hscan]
    exact Option.some_ne_none _
  have haimed : Aimed vol (view vol d) (view vol d) [] path c name :=
    ⟨hnil, hpath, hne, hscans, hvalid, .inr ⟨k, hc⟩, hdot⟩
  obtain ⟨t, img', G, hrun, hs', hp', hsweep, hreach⟩ := removePath_sweeps (t := ⟨d, display⟩) hg hw
    hplain hbound haimed hm.shows (by decide) (Nat.le_add_right _ _)
  rw [append_nil] at hp' hsweep
  refine ⟨t, hrun, ?_⟩
  rw [hs'.view_eq, hsweep]
  refine treeRemoved_iff hg hw hp' hat hdir ?_ ?_
  · rw [← hsweep]
    exact mem_sweep hscan
  · intro q hq
    obtain ⟨r, hr, hqr⟩ := hreach q hq
    obtain rfl := Option.some.inj (Option.some.inj (hscan.symm.trans hr))
    exact hqr.imp_right And.right

end Removed

/-! ## On sample volumes -/

/-- The names are plain when those in the slots of all directories are. -/
theorem plainTree_of_single {dirs : List Nat} (hdirs : ListsDirs vol img dirs)
    (hplain : ∀ c ∈ dirs, ∀ i < vol.slotsPerCluster, LiveEntry (img.slot (c, i)) →
      ((decodedName (img.slot (c, i))).all fun b => decide (b < 0x80 ∧ b ≠ 0x2F)) = true) :
    PlainTree vol img := by
  rintro ⟨c, i⟩ ⟨hc, hi, hlive, -⟩ b hb
  have hall := hplain c (hdirs.mem hc) i hi hlive
  exact of_decide_eq_true (all_eq_true.mp hall b hb)

/-- A root directory with the directory `D`, which holds a file with the same name. -/
def nestedDisk : Disk := diskOf (0x0FFFFFF8 :: replicate 4 0x0FFFFFFF)
  [dirSlot [0x44] 3, dotSlots 3 ++ fileSlot [0x44] 4 1]

theorem nested_inspected : Inspected tinyVol (view tinyVol nestedDisk) [2, 3]
    [(none, [2]), (some (2, 0), [3]), (some (3, 2), [4])] := by decide +kernel

/-- `rm -r /D` removes the directory and its file when both have the same name. -/
theorem rm_removes_tree_nested : ∃ t, removePath (some tinyVol) true false LOOP_BOUND [0x2F, 0x44]
    ⟨nestedDisk, []⟩ = .ok () t ∧
    TreeRemoved tinyVol (view tinyVol nestedDisk) (2, 0) (view tinyVol t.dev) := by
  have hdirs := nested_inspected.1
  have hwell := wellFormed_of_lists _ _ tiny_geometry nested_inspected
  have hroot : (view tinyVol nestedDisk).Chain tinyVol 2 [2] := by decide +kernel
  have hscan : scanDir (view tinyVol nestedDisk) [0x44] (tinyVol.dirSlots [2]) =
      some (some (2, 0)) := by decide +kernel
  obtain ⟨pre, post, hslots, hskip, hhit⟩ := scanDir_found hscan
  obtain ⟨t, hrun, hiff⟩ := rm_removes_tree_iff tinyVol nestedDisk [0x2F, 0x44] [0x44] 2 (2, 0)
    false [] tiny_geometry (tiny_mirrored _) hwell
    (plainTree_of_single hdirs (by decide +kernel)) (by decide +kernel)
    ⟨[], rfl, .nil 2⟩ (by decide) ⟨[2], pre, post, hroot, hslots, hskip, hhit⟩ (by decide +kernel)
  refine ⟨t, hrun, hiff.mpr ?_⟩
  have hreached : ∀ c ∈ [2, 3], ∀ i < tinyVol.slotsPerCluster,
      LiveEntry ((view tinyVol nestedDisk).slot (c, i)) →
      ¬ IsDot ((view tinyVol nestedDisk).slot (c, i)) →
        (c, i) ∈ sweep tinyVol (view tinyVol nestedDisk) MAX_PATH 2 2 [0x44] [] := by
    decide +kernel
  rintro ⟨c, i⟩ - ⟨hc, hi, hlive, hdot⟩ -
  exact hreached c (hdirs.mem hc) i hi hlive hdot

/-- **A file that `rm -r` leaves.** The directory `/D` holds the file `G`, whose cluster is 5. The
call looks for `AB`, `A` and `D` in it, and then removes the directory: its slot is deleted and its
cluster is free, but the cluster of the file is still allocated, and no entry leads to it. -/
theorem rm_leaves_file :
    Geometry tinyVol ∧ Mirrored tinyVol secondDisk ∧ WellFormed tinyVol secondImage ∧
    PlainTree tinyVol secondImage ∧
    namedSlot secondImage [0x44] (tinyVol.dirSlots [2]) = some (2, 2) ∧
    Subdirectory (secondImage.slot (2, 2)) ∧ Below tinyVol secondImage (2, 2) (4, 2) ∧
    Owner.Live tinyVol secondImage (some (4, 2)) ∧
    Owner.Holds tinyVol secondImage (some (4, 2)) 5 ∧
    ∃ t, removePath (some tinyVol) true false LOOP_BOUND [0x2F, 0x44] ⟨secondDisk, []⟩ = .ok () t ∧
      ¬ LiveEntry ((view tinyVol t.dev).slot (2, 2)) ∧ (view tinyVol t.dev).next 4 = 0 ∧
      (view tinyVol t.dev).next 5 ≠ 0 ∧
      ¬ TreeRemoved tinyVol secondImage (2, 2) (view tinyVol t.dev) := by
  obtain ⟨-, -, hdir, hstart⟩ := second_path_D
  have hdirs := second_inspected.1.1
  have hplain : PlainTree tinyVol secondImage := plainTree_of_single hdirs (by decide +kernel)
  have hsub : secondImage.Chain tinyVol (startOf (secondImage.slot (2, 2))) [4] := by
    decide +kernel
  have hbelow : Below tinyVol secondImage (2, 2) (4, 2) := .child ⟨[4], hsub, by decide⟩
  have hlive : Owner.Live tinyVol secondImage (some (4, 2)) :=
    ⟨(second_dirCluster 4).mpr (by decide), by decide, by decide +kernel, by decide +kernel⟩
  have hholds : Owner.Holds tinyVol secondImage (some (4, 2)) 5 :=
    ⟨[5], by decide +kernel, mem_singleton_self 5⟩
  obtain ⟨t, hrun, hgone, hfree, hheld⟩ : ∃ t,
      removePath (some tinyVol) true false LOOP_BOUND [0x2F, 0x44] ⟨secondDisk, []⟩ = .ok () t ∧
      ¬ LiveEntry ((view tinyVol t.dev).slot (2, 2)) ∧ (view tinyVol t.dev).next 4 = 0 ∧
      (view tinyVol t.dev).next 5 ≠ 0 := by decide +kernel
  refine ⟨tiny_geometry, tiny_mirrored _, second_wellFormed, hplain, by decide +kernel, hdir,
    hbelow, hlive, hholds, t, hrun, hgone, hfree, hheld, ?_⟩
  exact fun hremoved => hheld (hremoved.freed _ _ (.inr hbelow) hlive hholds)

end PlanckOS.Applets.Rm
