import PlanckOS.Fat32.Listing
import PlanckOS.Fat32.Resolve

/-!
# The current directory

`cwdAfter` is the path that a sequence of `f_chdir` calls should lead to: an absolute path replaces
the one before, a relative path extends it. `CwdHonoured` says that `f_getcwd` returns this path and
that a relative path means the same as the path behind it.

The driver keeps neither promise. `f_chdir` erases the old path before it appends to it, so that
`f_getcwd` is right exactly when the last call was absolute (`LastAbsolute`). `resolve_path` starts
every path at the root, so that relative paths are right when the lookups along the current path
lead back to the root (`Follows`). Both together are enough on every volume, and on a well-formed
volume they are needed as long as the lookups lead to starts of chains of the tree (`cwd_honoured`).
-/

set_option autoImplicit false

namespace PlanckOS.Fat32

open Lib.Fallible FatVolume List

variable {vol : Option FatVolume} {s s' : WorkDir Disk} {calls : List Bytes} {path last cwd : Bytes}

/-! ## Sequences of `f_chdir` calls -/

section Runs

variable {δ : Type} [BlockDevice δ]

/-- The calls of `f_chdir` one after the other. -/
def chdirs (vol : Option FatVolume) : List Bytes → Op (WorkDir δ) FError Unit
  | [] => pure ()
  | path :: calls => do
      fChdir vol path
      chdirs vol calls

end Runs

/-- The current path behind a call of `f_chdir`. -/
def extendPath (cwd path : Bytes) : Bytes :=
  if path.head? = some 0x2F then path
  else if cwd.getLast? = some 0x2F then cwd ++ path
  else cwd ++ 0x2F :: path

/-- The current path behind the calls, `/` before them. -/
def cwdAfter (calls : List Bytes) : Bytes := calls.foldl extendPath [0x2F]

/-- The path that the driver keeps. -/
def keptPath (calls : List Bytes) : Bytes := calls.getLastD [0x2F]

/-- The last call was absolute. The empty path behind `/` makes no difference. -/
def LastAbsolute (calls : List Bytes) : Prop :=
  (keptPath calls).head? = some 0x2F ∨ (keptPath calls = [] ∧ cwdAfter calls = [0x2F])

/-- `f_getcwd` returns the path. -/
def GetcwdShows (s : WorkDir Disk) (path : Bytes) : Prop :=
  ∀ buf, path.length < buf.length → fGetcwd buf s = .ok (path ++ 0 :: buf.drop (path.length + 1)) s

/-- A relative path means the same as behind the current path. -/
def LookupsAlike (vol : FatVolume) (d : Disk) (cwd : Bytes) : Prop :=
  ∀ path : Bytes, path.head? ≠ some 0x2F →
    fStat (some vol) path d = fStat (some vol) (cwd ++ 0x2F :: path) d ∧
    fOpen (some vol) path FA_READ d =
      fOpen (some vol) (cwd ++ 0x2F :: path) FA_READ d

/-- The current directory is honoured. -/
def CwdHonoured (vol : FatVolume) (s : WorkDir Disk) (calls : List Bytes) : Prop :=
  GetcwdShows s (cwdAfter calls) ∧ LookupsAlike vol s.dev (cwdAfter calls)

/-! ## The path kept -/

section Kept

variable {text : Bytes}

theorem cwdPath_eq (h : path.length ≤ 255) : cwdPath path = Buf.store (fun _ => 0) 0 path := by
  rw [cwdPath]
  split
  · rw [take_of_length_le h]
  · exact congrArg (Buf.store _ 0) (take_of_length_le h)

theorem cwdInit_path (s : WorkDir Disk) : (cwdInit s).path = cwdPath [0x2F] := by
  rw [cwdPath_eq (by decide)]
  funext k
  change (if k = 0 then 0x2F else 0) = _
  rw [Buf.store]
  by_cases hk : k = 0
  · subst hk
    rfl
  · rw [if_neg hk, if_neg (by rw [length_singleton]; omega)]

/-- One call reads the device and replaces the path. -/
theorem fChdir_ok (h : fChdir vol path s = .ok () s') :
    s'.dev = s.dev ∧ s'.path = cwdPath path := by
  have hread : (withVol vol fun vol => resolvePath vol path : DevOp Disk _).ReadOnly := by
    cases vol with
    | none => exact Op.readOnly_throw _
    | some vol => exact resolvePath_readOnly vol path
  rw [fChdir] at h
  split at h
  next hrun =>
    obtain ⟨-, rfl⟩ := Outcome.ok.inj h
    exact ⟨hread.of_ok hrun, rfl⟩
  next => cases h
  next => cases h

/-- A whole run keeps the device, and only the last path is kept. -/
theorem chdirs_ok (h : chdirs vol calls s = .ok () s')
    (hpath : s.path = cwdPath last) : s'.dev = s.dev ∧ s'.path = cwdPath (calls.getLastD last) := by
  induction calls generalizing s last with
  | nil =>
    obtain ⟨-, rfl⟩ := Outcome.ok.inj h
    exact ⟨rfl, hpath⟩
  | cons path calls ih =>
    obtain ⟨⟨⟩, t, hstep, hrest⟩ := Op.bind_eq_ok h
    obtain ⟨hdev, htext⟩ := fChdir_ok hstep
    obtain ⟨hdev', hpath'⟩ := ih hrest htext
    exact ⟨hdev'.trans hdev, by rw [hpath', getLastD_cons]⟩

/-- The first zero of a path in the buffer. -/
theorem find_zero (hlen : text.length ≤ 255) (hzero : (0 : UInt8) ∉ text) :
    ((range 256).find? fun i => Buf.store (fun _ => 0) 0 text i == 0) = some text.length := by
  rw [find?_range_eq_some]
  refine ⟨?_, mem_range.mpr (by omega), fun j hj => ?_⟩
  · rw [Buf.store, if_neg (by omega)]
    rfl
  · rw [Buf.store, if_pos (by omega), Nat.sub_zero, getD_eq_getElem _ _ hj]
    have hne : text[j] ≠ 0 := fun h0 => hzero (h0 ▸ getElem_mem hj)
    simpa using hne

/-- What `f_getcwd` makes of the path kept. -/
def shownPath (path : Bytes) : Bytes := if path = [] then [0x2F] else path

theorem fGetcwd_run (hpath : s.path = cwdPath text) (hlen : text.length ≤ 255)
    (hzero : (0 : UInt8) ∉ text) : GetcwdShows s (shownPath text) := by
  intro buf hroom
  rw [cwdPath_eq hlen] at hpath
  rw [fGetcwd, hpath, find_zero hlen hzero, Option.getD_some]
  by_cases hempty : text = []
  · -- the branch for a path that was never set
    subst hempty
    obtain ⟨a, b, rest, rfl⟩ : ∃ a b rest, buf = a :: b :: rest := by
      cases buf with
      | nil => cases hroom
      | cons a buf =>
        cases buf with
        | nil => exact absurd hroom (lt_irrefl 1)
        | cons b rest => exact ⟨a, b, rest, rfl⟩
    rfl
  · rw [shownPath, if_neg hempty] at hroom ⊢
    have hpos : 0 < text.length := length_pos_iff.mpr hempty
    have hmin : min text.length buf.length = text.length := Nat.min_eq_left hroom.le
    have hcopy : (range text.length).map (Buf.store (fun _ => 0) 0 text) = text := by
      refine ext_getElem (by simp) fun i hi hi' => ?_
      rw [getElem_map, getElem_range, Buf.store, if_pos (by omega), Nat.sub_zero,
        getD_eq_getElem _ _ hi']
    have hdrop : buf.drop text.length = buf[text.length] :: buf.drop (text.length + 1) :=
      drop_eq_getElem_cons hroom
    simp only [if_pos hpos, hmin, hcopy]
    rw [if_pos (by rw [length_append, length_drop]; omega), hdrop,
      set_append_right _ _ le_rfl, Nat.sub_self, set_cons_zero]

end Kept

/-! ## The path that should be kept -/

theorem extendPath_head (h : cwd.head? = some 0x2F) : (extendPath cwd path).head? = some 0x2F := by
  have hne : cwd ≠ [] := by
    rintro rfl
    cases h
  rw [extendPath]
  split
  · assumption
  split
  · rw [head?_append_of_ne_nil _ hne, h]
  · rw [head?_append_of_ne_nil _ hne, h]

theorem extendPath_suffix (cwd path : Bytes) : path <:+ extendPath cwd path := by
  rw [extendPath]
  split
  · exact suffix_rfl
  split
  · exact suffix_append _ _
  · exact (suffix_cons _ _).trans (suffix_append _ _)

theorem cwdAfter_concat (calls : List Bytes) (path : Bytes) :
    cwdAfter (calls ++ [path]) = extendPath (cwdAfter calls) path := by
  rw [cwdAfter, foldl_append]
  rfl

/-- The current path is absolute. -/
theorem cwdAfter_head (calls : List Bytes) : (cwdAfter calls).head? = some 0x2F := by
  induction calls using reverseRecOn with
  | nil => rfl
  | append_singleton calls path ih =>
    rw [cwdAfter_concat]
    exact extendPath_head ih

/-- The current path ends with the path kept. -/
theorem keptPath_suffix (calls : List Bytes) : keptPath calls <:+ cwdAfter calls := by
  induction calls using reverseRecOn with
  | nil => exact suffix_rfl
  | append_singleton calls path _ =>
    rw [cwdAfter_concat, keptPath, getLastD_concat]
    exact extendPath_suffix _ _

/-- An absolute path is the current one. -/
theorem cwdAfter_of_absolute (h : (keptPath calls).head? = some 0x2F) :
    cwdAfter calls = keptPath calls := by
  induction calls using reverseRecOn with
  | nil => rfl
  | append_singleton calls path _ =>
    rw [keptPath, getLastD_concat] at h ⊢
    rw [cwdAfter_concat, extendPath, if_pos h]

/-- The driver shows the current path exactly when the last call was absolute. -/
theorem shownPath_eq_iff (calls : List Bytes) :
    shownPath (keptPath calls) = cwdAfter calls ↔ LastAbsolute calls := by
  rw [shownPath, LastAbsolute]
  by_cases hempty : keptPath calls = []
  · rw [if_pos hempty, hempty]
    simp [eq_comm]
  · rw [if_neg hempty]
    constructor
    · intro h
      exact .inl (h ▸ cwdAfter_head calls)
    · rintro (h | ⟨h, -⟩)
      · exact (cwdAfter_of_absolute h).symm
      · exact absurd h hempty

/-- **What `f_getcwd` returns** is the current path exactly when the last call was absolute. -/
theorem getcwdShows_iff
    (hrun : chdirs vol calls (cwdInit s) = .ok () s') (hlen : (cwdAfter calls).length < 255)
    (hzero : (0 : UInt8) ∉ cwdAfter calls) :
    GetcwdShows s' (cwdAfter calls) ↔ LastAbsolute calls := by
  have hsuffix := keptPath_suffix calls
  have hkept : s'.path = cwdPath (keptPath calls) := (chdirs_ok hrun (cwdInit_path s)).2
  have hshown := fGetcwd_run hkept (hsuffix.length_le.trans hlen.le) fun h =>
    hzero (hsuffix.subset h)
  rw [← shownPath_eq_iff]
  constructor
  · intro h
    -- in a buffer of ones the zero behind the path is the only one
    have hpos : 0 < (cwdAfter calls).length := by
      rw [length_pos_iff]
      intro hnil
      cases hnil ▸ cwdAfter_head calls
    have hshort : (shownPath (keptPath calls)).length ≤ (cwdAfter calls).length := by
      rw [shownPath]
      split
      · exact hpos
      · exact hsuffix.length_le
    have hbuf : (replicate 256 (1 : UInt8)).length = 256 := length_replicate
    have hnone : ∀ k, (0 : UInt8) ∉ (replicate 256 (1 : UInt8)).drop k := fun k hmem =>
      absurd (eq_of_mem_replicate (mem_of_mem_drop hmem)) (by decide)
    have hzero' : (0 : UInt8) ∉ shownPath (keptPath calls) := by
      rw [shownPath]
      split
      · decide
      · exact fun h => hzero (hsuffix.subset h)
    have hleft := hshown (replicate 256 1) (by omega)
    have hright := h (replicate 256 1) (by omega)
    have heq := (Outcome.ok.inj (hleft.symm.trans hright)).1
    exact ((append_cons_inj_of_notMem hzero' (hnone _)).mp heq).1
  · intro h
    rwa [h] at hshown

/-! ## Relative paths -/

/-- The lookups of the names, as `resolve_path` makes them, lead from the cluster `c` to `c'`. -/
inductive Follows (vol : FatVolume) (img : Image) : Nat → List Bytes → Nat → Prop
  | done (c : Nat) : Follows vol img c [] c
  | skip {c c' : Nat} {rest : List Bytes} (h : Follows vol img c rest c') :
      Follows vol img c ([] :: rest) c'
  | step {c c' : Nat} {p : Slot} {name : Bytes} {rest : List Bytes} (hne : name ≠ [])
      (hp : Selects vol img c name p) (h : Follows vol img (startOf (img.slot p)) rest c') :
      Follows vol img c (name :: rest) c'

/-- The lookups lead to first clusters of the tree's entries. -/
def StaysInTree (vol : FatVolume) (img : Image) (c : Nat) (names : List Bytes) : Prop :=
  ∀ part, part <+: names → ∀ c', Follows vol img c part c' →
    ∃ o : Owner, o.Live vol img ∧ c' = o.start vol img

section Names

variable {vol : FatVolume} {d d' : Disk} {img : Image} {c c' : Nat} {name : Bytes}
  {names rest : List Bytes} {p : Slot}

/-- The slashes before a path make no difference to `resolve_path`. -/
theorem resolvePath_split (vol : FatVolume) (path : Bytes) : (resolvePath vol path : DevOp Disk _) =
      resolveFrom vol vol.rootCluster (path.splitOn 0x2F) := by
  have htrim : (resolveFrom vol vol.rootCluster (path.splitOn 0x2F) : DevOp Disk _) =
      resolveFrom vol vol.rootCluster ((path.dropWhile (· == 0x2F)).splitOn 0x2F) := by
    induction path with
    | nil => rfl
    | cons b path ih =>
      by_cases hb : b = 0x2F
      · subst hb
        have hsplit := splitOn_append_cons_self (a := (0x2F : UInt8)) [] path
        rw [nil_append, splitOn_nil, singleton_append] at hsplit
        rw [hsplit, resolveFrom_nil_cons (splitOn_ne_nil _ _), ih]
        rfl
      · rw [dropWhile_cons_of_neg (by simpa using hb)]
  rw [htrim, resolvePath_eq, ← pathComponents_eq, pathComponents]

theorem resolvePath_append (vol : FatVolume) (cwd path : Bytes) :
    (resolvePath vol (cwd ++ 0x2F :: path) : DevOp Disk _) =
      resolveFrom vol vol.rootCluster (cwd.splitOn 0x2F ++ path.splitOn 0x2F) := by
  rw [resolvePath_split, splitOn_append_cons_self]

variable (hg : Geometry vol) (hv : view vol d = img) (hw : WellFormed vol img)

include hg hv in
/-- The walk along the names, and on from there. -/
theorem Follows.resolveFrom_eq (h : Follows vol img c names c') (hrest : rest ≠ []) :
    resolveFrom vol c (names ++ rest) d = resolveFrom vol c' rest d := by
  induction h with
  | done c => rfl
  | skip _ ih =>
    rw [cons_append, resolveFrom_nil_cons (by simp [hrest])]
    exact ih
  | step hne hp _ ih =>
    obtain ⟨hfind, hvalid⟩ := hp.find hg hv
    rw [cons_append, resolveFrom_found hne (by simp [hrest]) hfind
      (readEntryData_shows hg hv hvalid _)]
    exact ih

include hg hv in
/-- Along a path that leads back to the root, every path resolves as from the root. -/
theorem Follows.resolvePath_append_eq
    (h : Follows vol img vol.rootCluster (path.splitOn 0x2F) vol.rootCluster) (more : Bytes) :
    resolvePath vol (path ++ 0x2F :: more) d = resolvePath vol more d := by
  rw [resolvePath_append, h.resolveFrom_eq hg hv (splitOn_ne_nil _ _), resolvePath_split]

/-- `f_stat` and `f_open` depend on the path through `resolve_path` only. -/
theorem lookupsAlike_of_resolved
    (h : ∀ more, resolvePath vol (cwd ++ 0x2F :: more) d = resolvePath vol more d) :
    LookupsAlike vol d cwd := by
  intro more _
  exact ⟨Op.bind_congr (h more).symm, Op.bind_congr (h more).symm⟩

/-! ## The way back -/

include hg hv hw in
/-- What a lookup from the first cluster of an entry finds is in the chain of the entry. -/
theorem found_of_owner {o : Owner} (ho : o.Live vol img)
    (h : vol.findEntryInDir (o.start vol img) name d = .ok (some p) d') :
    Selects vol img (o.start vol img) name p ∧ o.Holds vol img p.1 := by
  rcases hw.heads o ho with hzero | ⟨l, hl⟩
  · rw [hzero, findEntryInDir_zero] at h
    cases h
  · rw [findEntryInDir_eq hg hv hl] at h
    cases hscan : scanDir img name (vol.dirSlots l) with
    | none =>
      rw [hscan] at h
      cases h
    | some found =>
      rw [hscan] at h
      obtain rfl := (Outcome.ok.inj h).1
      obtain ⟨pre, post, hslots, hskip, hhit⟩ := scanDir_found hscan
      have hmem := mem_iff_append.mpr ⟨_, _, hslots⟩
      exact ⟨⟨l, pre, post, hl, hslots, hskip, hhit⟩, l, hl, (mem_dirSlots.mp hmem).1⟩

include hg hv hw in
/-- A walk that returns has followed the names. -/
theorem follows_of_resolved (hstay : StaysInTree vol img c names) {found : Nat × Bytes}
    (h : resolveFrom vol c (names ++ [last]) d = .ok found d') :
    Follows vol img c names found.1 ∧ found.2 = last := by
  induction names generalizing c with
  | nil =>
    obtain ⟨rfl, -⟩ := Outcome.ok.inj h
    exact ⟨.done c, rfl⟩
  | cons name names ih =>
    by_cases hne : name = []
    · subst hne
      rw [cons_append, resolveFrom_nil_cons (by simp)] at h
      obtain ⟨hfollow, hlast⟩ := ih (fun part hpart c' hc' =>
        hstay ([] :: part) (cons_prefix_cons.mpr ⟨rfl, hpart⟩) c' (.skip hc')) h
      exact ⟨.skip hfollow, hlast⟩
    · -- the lookup starts at the first cluster of an entry, so it is the scan of a chain
      obtain ⟨o, ho, rfl⟩ := hstay [] nil_prefix c (.done c)
      rw [cons_append] at h
      obtain ⟨r, t, hfind⟩ := resolveFrom_looked hne (by simp) h
      obtain rfl := (findEntryInDir_readOnly vol _ _).of_ok hfind
      cases r with
      | none =>
        rw [resolveFrom_missing hne (by simp) hfind] at h
        cases h
      | some p =>
        obtain ⟨hp, -⟩ := found_of_owner hg hv hw ho hfind
        have hread := readEntryData_shows hg hv (hp.find hg hv).2 p.2
        rw [resolveFrom_found hne (by simp) hfind hread] at h
        obtain ⟨hfollow, hlast⟩ := ih (fun part hpart c' hc' =>
          hstay (name :: part) (cons_prefix_cons.mpr ⟨rfl, hpart⟩) c' (.step hne hp hc')) h
        exact ⟨.step hne hp hfollow, hlast⟩

/-- A lookup of the name of an entry finds something. -/
theorem Denotes.selects (hne : name ≠ []) (h : Denotes vol img c name p) :
    ∃ q, Selects vol img c name q := by
  obtain ⟨l, hl, hp⟩ := h
  obtain ⟨-, -, hnamed⟩ := namedSlot_some hp
  have hpresent : scanDir img name (vol.dirSlots l) ≠ none :=
    scanDir_ne_none hne hnamed.startsWith.zero_not_mem _
  obtain ⟨found, hscan⟩ := Option.ne_none_iff_exists'.mp hpresent
  cases found with
  | none =>
    rw [namedSlot_of_scan_none hne hscan] at hp
    cases hp
  | some q =>
    obtain ⟨pre, post, hslots, hskip, hhit⟩ := scanDir_found hscan
    exact ⟨q, l, pre, post, hl, hslots, hskip, hhit⟩

/-- Names of directories have no zeros. -/
theorem Descends.zero_not_mem (h : Descends vol img c names c') :
    ∀ name ∈ names, (0 : UInt8) ∉ name := by
  induction h with
  | done c => exact fun name hmem => absurd hmem not_mem_nil
  | skip _ ih =>
    intro name hmem
    rcases mem_cons.mp hmem with rfl | hmem
    · exact not_mem_nil
    · exact ih name hmem
  | step _ hp _ _ ih =>
    intro other hmem
    rcases mem_cons.mp hmem with rfl | hmem
    · obtain ⟨l, -, hp⟩ := hp
      exact (namedSlot_some hp).2.2.startsWith.zero_not_mem
    · exact ih other hmem

/-- The names are all empty, or the first that is not is found where the walk starts. -/
theorem Descends.stays_or_finds (h : Descends vol img c names c') :
    Follows vol img c names c ∨ ∃ name ∈ names, name ≠ [] ∧ ∃ p, Selects vol img c name p := by
  induction h with
  | done c => exact .inl (.done c)
  | skip _ ih =>
    refine ih.imp .skip ?_
    rintro ⟨name, hmem, hfound⟩
    exact ⟨name, mem_cons_of_mem _ hmem, hfound⟩
  | step hne hp => exact .inr ⟨_, mem_cons_self, hne, hp.selects hne⟩

/-- `f_open` returns handles on entries that the lookup of the last component has found. -/
theorem fOpen_read_ok {file : File} (h : fOpen (some vol) path FA_READ d = .ok file d') :
    ∃ c name p, resolvePath vol path d = .ok (c, name) d ∧
      vol.findEntryInDir c name d = .ok (some p) d ∧
      file.dirSector = p.1 ∧ file.dirOffset = p.2 := by
  obtain ⟨⟨c, name⟩, t, hpath, hrest⟩ := Op.bind_eq_ok h
  obtain rfl := (resolvePath_readOnly vol path).of_ok hpath
  obtain ⟨found, u, hfind, hopen⟩ := Op.bind_eq_ok hrest
  obtain rfl := (findEntryInDir_readOnly vol c name).of_ok hfind
  cases found with
  | none =>
    change (openMissing vol FA_READ c name : DevOp Disk File) _ = _ at hopen
    rw [openMissing, if_pos (by decide)] at hopen
    cases hopen
  | some p =>
    change (openExisting vol FA_READ p.1 p.2 : DevOp Disk File) _ = _ at hopen
    rw [openExisting, if_neg (by decide)] at hopen
    obtain ⟨e, v, -, hhandle⟩ := Op.bind_eq_ok hopen
    rw [if_neg (by decide)] at hhandle
    obtain ⟨rfl, -⟩ := Outcome.ok.inj hhandle
    exact ⟨c, name, p, hpath, hfind, rfl, rfl⟩

include hg hv hw in
/-- **Only a path that leads back to the root lets relative paths mean the same.** The first name of
the path is found in the root; behind the path it has to be found in the same slot, and no other
chain has the cluster of that slot. -/
theorem follows_of_alike (hdir : Descends vol img vol.rootCluster (cwd.splitOn 0x2F) c)
    (hstay : StaysInTree vol img vol.rootCluster (cwd.splitOn 0x2F)) (h : LookupsAlike vol d cwd) :
    Follows vol img vol.rootCluster (cwd.splitOn 0x2F) vol.rootCluster := by
  rcases hdir.stays_or_finds with hback | ⟨name, hmem, hne, p, hp⟩
  · exact hback
  have hslash : (0x2F : UInt8) ∉ name := not_mem_of_mem_splitOn hmem
  have hrel : name.head? ≠ some 0x2F := fun hhead => hslash (mem_of_mem_head? hhead)
  have hsplit : name.splitOn 0x2F = [name] := splitOn_eq_singleton hslash
  obtain ⟨hfind, hvalid⟩ := hp.find hg hv
  have hroot : resolvePath vol name d = .ok (vol.rootCluster, name) d := by
    rw [resolvePath_split, hsplit]
    rfl
  have hopen : fOpen (some vol) name FA_READ d = .ok (oldFile FA_READ p (img.slot p)) d :=
    fOpen_found hg hv hroot hfind hvalid (by decide) (by decide)
  rw [(h name hrel).2] at hopen
  obtain ⟨c', last, q, hpath, hfind', hsector, -⟩ := fOpen_read_ok hopen
  rw [resolvePath_append, hsplit] at hpath
  obtain ⟨hfollow, rfl⟩ := follows_of_resolved hg hv hw hstay hpath
  obtain ⟨o, ho, rfl⟩ := hstay _ prefix_rfl _ hfollow
  -- the handle names the cluster of the slot, which is in the chain of `o` and in that of the root
  have hq : o.Holds vol img q.1 := (found_of_owner hg hv hw ho hfind').2
  have hp' : Owner.Holds vol img none p.1 := (found_of_owner hg hv hw (o := none) trivial hfind).2
  have hpq : p.1 = q.1 := hsector
  by_cases howner : o = none
  · subst howner
    exact hfollow
  · exact absurd (hpq ▸ hp') fun hroot => hw.disjoint o none ho trivial howner _ hq hroot

end Names

/-! ## The result -/

/-- **The current directory.** After a run of successful `f_chdir` calls to an existing directory,
`f_getcwd` returns its path and relative paths mean the same as behind that path, if the last call
was absolute and the lookups along the path lead back to the root. On a well-formed volume where the
lookups lead to first clusters of the tree's entries this is also needed. -/
theorem cwd_honoured (vol : FatVolume) (s s' : WorkDir Disk) (calls : List Bytes) (c : Nat)
    (hg : Geometry vol) (hrun : chdirs (some vol) calls (cwdInit s) = .ok () s')
    (hdir : Descends vol (view vol s.dev) vol.rootCluster ((cwdAfter calls).splitOn 0x2F) c)
    (hlen : (cwdAfter calls).length < 255) :
    (LastAbsolute calls ∧ Follows vol (view vol s.dev) vol.rootCluster
        ((cwdAfter calls).splitOn 0x2F) vol.rootCluster → CwdHonoured vol s' calls) ∧
    (WellFormed vol (view vol s.dev) →
      StaysInTree vol (view vol s.dev) vol.rootCluster ((cwdAfter calls).splitOn 0x2F) →
      CwdHonoured vol s' calls → LastAbsolute calls ∧ Follows vol (view vol s.dev) vol.rootCluster
        ((cwdAfter calls).splitOn 0x2F) vol.rootCluster) := by
  have hzero : (0 : UInt8) ∉ cwdAfter calls := not_mem_of_splitOn (by decide) hdir.zero_not_mem
  have hshows := getcwdShows_iff hrun hlen hzero
  have hdev : s'.dev = s.dev := (chdirs_ok hrun (cwdInit_path s)).1
  rw [CwdHonoured, hdev]
  constructor
  · rintro ⟨hlast, hback⟩
    exact ⟨hshows.mpr hlast, lookupsAlike_of_resolved (hback.resolvePath_append_eq hg rfl)⟩
  · rintro hw hstay ⟨hgetcwd, halike⟩
    exact ⟨hshows.mp hgetcwd, follows_of_alike hg rfl hw hdir hstay halike⟩

/-- The volume with the directory `D`, before `f_mount` sets the current directory. -/
def secondWork : WorkDir Disk := ⟨secondDisk, 0, fun _ => 0⟩

/-- `f_chdir("/D")` and then `f_chdir("/")`: the root is honoured as the current directory. -/
theorem cwd_honoured_second :
    ∃ s, chdirs (some tinyVol) [[0x2F, 0x44], [0x2F]] (cwdInit secondWork) = .ok () s ∧
      cwdAfter [[0x2F, 0x44], [0x2F]] = [0x2F] ∧
      CwdHonoured tinyVol s [[0x2F, 0x44], [0x2F]] := by
  have hsplit : (cwdAfter [[0x2F, 0x44], [0x2F]]).splitOn 0x2F = [[], []] := by decide
  have hdir : Descends tinyVol secondImage 2 [[], []] 2 := .skip (.skip (.done 2))
  have hback : Follows tinyVol secondImage 2 [[], []] 2 := .skip (.skip (.done 2))
  refine ⟨_, rfl, rfl, (cwd_honoured tinyVol secondWork _ [[0x2F, 0x44], [0x2F]] 2 tiny_geometry
    rfl (hsplit ▸ hdir) (by decide)).1 ⟨.inl rfl, hsplit ▸ hback⟩⟩

/-- After `f_chdir("/D")`, `f_stat("G")` looks in the root and fails, while `/D/G` is there. After
`f_chdir("D")`, `f_getcwd` returns `D` instead of `/D`. -/
theorem cwd_ignored : ∃ s t, chdirs (some tinyVol) [[0x2F, 0x44]] (cwdInit secondWork) = .ok () s ∧
    chdirs (some tinyVol) [[0x44]] (cwdInit secondWork) = .ok () t ∧
    cwdAfter [[0x2F, 0x44]] = [0x2F, 0x44] ∧ cwdAfter [[0x44]] = [0x2F, 0x44] ∧
    Descends tinyVol secondImage 2 ([0x2F, 0x44].splitOn 0x2F) 4 ∧
    (∃ d, fStat (some tinyVol) [0x47] s.dev = .err .noFile d) ∧
    (∃ info d, fStat (some tinyVol) [0x2F, 0x44, 0x2F, 0x47] s.dev =
      .ok info d) ∧
    fGetcwd [1, 1, 1, 1] t = .ok [0x44, 0, 1, 1] t ∧
    ¬ CwdHonoured tinyVol s [[0x2F, 0x44]] ∧ ¬ CwdHonoured tinyVol t [[0x44]] := by
  have hsplit : ([0x2F, 0x44] : Bytes).splitOn 0x2F = [[], [0x44]] := by decide
  have hdir : Descends tinyVol secondImage 2 [[], [0x44]] 4 := .skip (second_descends (.done _))
  obtain ⟨d, hstat⟩ : ∃ d, fStat (some tinyVol) [0x47] secondDisk = .err .noFile d := by
    decide +kernel
  obtain ⟨info, d', hstat'⟩ : ∃ info d', fStat (some tinyVol) [0x2F, 0x44, 0x2F, 0x47] secondDisk =
      .ok info d' := by decide +kernel
  have hshown : ∀ t : WorkDir Disk, t.path = cwdPath [0x44] →
      fGetcwd [1, 1, 1, 1] t = .ok [0x44, 0, 1, 1] t := by
    intro t ht
    exact fGetcwd_run ht (by decide) (by decide) [1, 1, 1, 1] (by decide)
  refine ⟨_, _, rfl, rfl, rfl, rfl, hsplit ▸ hdir, ⟨d, hstat⟩, ⟨info, d', hstat'⟩, hshown _ rfl,
    ?_, ?_⟩
  · rintro ⟨-, halike⟩
    have heq := (halike [0x47] (by decide)).1
    cases hstat.symm.trans (heq.trans hstat')
  · rintro ⟨hgetcwd, -⟩
    have hright := hgetcwd [1, 1, 1, 1] (by decide)
    exact absurd (Outcome.ok.inj ((hshown _ rfl).symm.trans hright)).1 (by decide)

end PlanckOS.Fat32
