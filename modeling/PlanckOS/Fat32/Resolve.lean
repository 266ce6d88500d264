import PlanckOS.Fat32.Footprints

/-!
# Where a path should lead, and where `resolve_path` goes

A path is a list of directory names and a last component. `Descends` says where the names lead: each
is the whole name of an entry with the directory bit in the directory reached so far, `.` and `..`
included, and a `..` that stores cluster 0 leads to the root (`leadsTo`).

`resolve_path` looks up each name with `find_entry_in_dir`, which may return another entry, never
tests the directory bit and takes the stored cluster as it is. `InStep` says that this makes no
difference: each lookup finds nothing, or an entry that stores the cluster of the directory named.
That is exactly when `resolve_path` is right about the path and all its initial parts
(`resolve_by_name_iff`).
-/

set_option autoImplicit false

namespace PlanckOS.Fat32

open Lib.Fallible FatVolume List

variable {names rest : List Bytes} {vol : FatVolume} {d : Disk} {img : Image}

/-! ## Parts of a path -/

/-- The components before the last one. -/
def pathParents (path : Bytes) : List Bytes := (pathComponents path).dropLast

/-- The last component. -/
def pathLast (path : Bytes) : Bytes := (pathComponents path).getLastD []

/-- The path that leads through the directories, without a last component. -/
def dirPath (names : List Bytes) : Bytes := names.flatMap fun name => name ++ [0x2F]

section Parts

variable {path name bytes : Bytes} {a : UInt8}

theorem pathComponents_eq (path : Bytes) :
    pathComponents path = pathParents path ++ [pathLast path] := by
  have hne : pathComponents path ≠ [] := splitOn_ne_nil _ _
  rw [pathParents, pathLast, getLastD_eq_getLast?, getLast?_eq_some_getLast hne,
    Option.getD_some, dropLast_concat_getLast]

theorem pathParents_of_eq (h : pathComponents path = names ++ [name]) :
    pathParents path = names := by
  rw [pathParents, h, dropLast_concat]

/-- A path is one component, or one and the path behind its slash. -/
theorem splitOn_induction {motive : Bytes → Prop} (single : ∀ front, a ∉ front → motive front)
    (slash : ∀ front rest, a ∉ front → motive rest → motive (front ++ a :: rest))
    (bytes : Bytes) : motive bytes := by
  induction hlen : bytes.length using Nat.strong_induction_on generalizing bytes with
  | _ len ih =>
    by_cases hmem : a ∈ bytes
    · obtain ⟨front, rest, rfl, hfront⟩ := eq_append_cons_of_mem hmem
      refine slash front rest hfront (ih rest.length ?_ rest rfl)
      rw [← hlen, length_append, length_cons]
      omega
    · exact single bytes hmem

/-- A component has no slash. -/
theorem not_mem_of_mem_splitOn (h : name ∈ bytes.splitOn a) : a ∉ name := by
  induction bytes using splitOn_induction (a := a) with
  | single front hfront =>
    rw [splitOn_eq_singleton hfront] at h
    exact mem_singleton.mp h ▸ hfront
  | slash front rest hfront ih =>
    rw [splitOn_append_cons_self, splitOn_eq_singleton hfront] at h
    rcases mem_append.mp h with h | h
    · exact mem_singleton.mp h ▸ hfront
    · exact ih h

/-- A byte of a path that is not a slash is in one of its components. -/
theorem not_mem_of_splitOn {a b : UInt8} (hab : b ≠ a) (h : ∀ name ∈ bytes.splitOn a, b ∉ name) :
    b ∉ bytes := by
  induction bytes using splitOn_induction (a := a) with
  | single front hfront =>
    rw [splitOn_eq_singleton hfront] at h
    exact h front mem_cons_self
  | slash front rest hfront ih =>
    rw [splitOn_append_cons_self, splitOn_eq_singleton hfront] at h
    rw [mem_append, mem_cons]
    rintro (hb | hb | hb)
    · exact h front (mem_append_left _ mem_cons_self) hb
    · exact hab hb
    · exact ih (fun name hname => h name (mem_append_right _ hname)) hb

/-- The first directory name of a path is not empty, as the slashes before it are dropped. -/
theorem pathParents_head_ne_nil (h : pathParents path = name :: rest) : name ≠ [] := by
  have hcomp := pathComponents_eq path
  rw [h, pathComponents, cons_append] at hcomp
  generalize htrim : path.dropWhile (· == 0x2F) = trimmed at hcomp
  by_cases hmem : (0x2F : UInt8) ∈ trimmed
  · obtain ⟨front, back, rfl, hfront⟩ := eq_append_cons_of_mem hmem
    rw [splitOn_append_cons_self, splitOn_eq_singleton hfront, singleton_append]
      at hcomp
    obtain rfl := (cons.inj hcomp).1
    rintro rfl
    have hhead := head?_dropWhile_not (fun b : UInt8 => b == 0x2F) path
    rw [htrim] at hhead
    simp at hhead
  · rw [splitOn_eq_singleton hmem] at hcomp
    exact absurd (cons.inj hcomp).2.symm (by simp)

/-- The directory names of a path are those of a path of their own. -/
theorem dirPath_parents (hslash : ∀ name ∈ names, (0x2F : UInt8) ∉ name)
    (hhead : ∀ name rest, names = name :: rest → name ≠ []) :
    pathParents (dirPath names) = names := by
  have hsplit : (dirPath names).splitOn 0x2F = names ++ [[]] := by
    clear hhead
    induction names with
    | nil => rfl
    | cons name rest ih =>
      rw [dirPath, flatMap_cons, append_assoc, singleton_append,
        splitOn_append_cons_self, splitOn_eq_singleton (hslash name mem_cons_self),
        singleton_append, cons_append]
      congr 1
      exact ih fun other hmem => hslash other (mem_cons_of_mem _ hmem)
  have htrim : (dirPath names).dropWhile (· == 0x2F) = dirPath names := by
    cases names with
    | nil => rfl
    | cons name rest =>
      have hne := hhead name rest rfl
      obtain ⟨b, bytes, rfl⟩ := exists_cons_of_ne_nil hne
      have hb : b ≠ 0x2F := fun h => hslash _ mem_cons_self (h ▸ mem_cons_self)
      rw [dirPath, flatMap_cons, cons_append, cons_append,
        dropWhile_cons_of_neg (by simpa using hb)]
  have hcomponents : pathComponents (dirPath names) = names ++ [[]] := by
    rw [pathComponents, htrim, hsplit]
  exact pathParents_of_eq hcomponents

/-- Every initial part of the directory names of a path is that of a path. -/
theorem exists_path_of_prefix (h : names <+: pathParents path) :
    ∃ path', pathParents path' = names := by
  refine ⟨dirPath names, dirPath_parents ?_ ?_⟩
  · intro name hmem
    have hin : name ∈ pathComponents path :=
      mem_of_mem_dropLast (h.subset hmem)
    exact not_mem_of_mem_splitOn hin
  · rintro name rest rfl
    obtain ⟨more, hmore⟩ := h
    exact pathParents_head_ne_nil (hmore.symm.trans (cons_append ..))

end Parts

/-! ## The directories that names lead to -/

/-- The cluster of the directory that an entry stands for. The `..` of a directory in the root
stores 0. -/
def leadsTo (vol : FatVolume) (e : Entry) : Nat :=
  if IsDot e ∧ startOf e = 0 then vol.rootCluster else startOf e

/-- The names lead from the directory at `c` to the one at `c'`. -/
inductive Descends (vol : FatVolume) (img : Image) : Nat → List Bytes → Nat → Prop
  | done (c : Nat) : Descends vol img c [] c
  | skip {c c' : Nat} {rest : List Bytes} (h : Descends vol img c rest c') :
      Descends vol img c ([] :: rest) c'
  | step {c c' : Nat} {p : Slot} {name : Bytes} {rest : List Bytes} (hne : name ≠ [])
      (hp : Denotes vol img c name p) (hd : IsDirEntry (img.slot p))
      (h : Descends vol img (leadsTo vol (img.slot p)) rest c') :
      Descends vol img c (name :: rest) c'

/-- Every directory entry of the tree leads to a directory of the tree, `.` and `..` included. -/
def DirsLead (vol : FatVolume) (img : Image) : Prop :=
  ∀ p : Slot, DirCluster vol img p.1 → p.2 < vol.slotsPerCluster → LiveEntry (img.slot p) →
    IsDirEntry (img.slot p) → DirCluster vol img (leadsTo vol (img.slot p))

/-- `resolve_path` does what the names say: it returns the directory they lead to with the last
component, or `NoPath` when they lead nowhere. -/
def ResolvesByName (vol : FatVolume) (d : Disk) (path : Bytes) : Prop :=
  (∀ c, Descends vol (view vol d) vol.rootCluster (pathParents path) c →
    resolvePath vol path d = .ok (c, pathLast path) d) ∧
  ((∀ c, ¬ Descends vol (view vol d) vol.rootCluster (pathParents path) c) →
    resolvePath vol path d = .err .noPath d)

/-- The lookups of the names go where the names lead: each finds nothing, or an entry that stores
the cluster of the directory that has the name. -/
inductive InStep (vol : FatVolume) (img : Image) : Nat → List Bytes → Prop
  | done (c : Nat) : InStep vol img c []
  | skip {c : Nat} {rest : List Bytes} (h : InStep vol img c rest) :
      InStep vol img c ([] :: rest)
  | missing {c : Nat} {l : List Nat} {name : Bytes} {rest : List Bytes} (hne : name ≠ [])
      (hl : img.Chain vol c l) (hscan : scanDir img name (vol.dirSlots l) = some none) :
      InStep vol img c (name :: rest)
  | step {c : Nat} {l : List Nat} {p q : Slot} {name : Bytes} {rest : List Bytes}
      (hne : name ≠ []) (hl : img.Chain vol c l)
      (hscan : scanDir img name (vol.dirSlots l) = some (some p))
      (hq : namedSlot img name (vol.dirSlots l) = some q) (hd : IsDirEntry (img.slot q))
      (hlead : startOf (img.slot p) = leadsTo vol (img.slot q))
      (h : InStep vol img (startOf (img.slot p)) rest) : InStep vol img c (name :: rest)

section Names

variable {c c' c'' : Nat} {l : List Nat}
  {name last : Bytes} {p q : Slot} {slots : List Slot}

/-- The entry with a name is a live one of the directory. -/
theorem namedSlot_some (h : namedSlot img name slots = some p) :
    p ∈ slots ∧ LiveEntry (img.slot p) ∧ Named name (img.slot p) := by
  induction slots with
  | nil => cases h
  | cons q qs ih =>
    rw [namedSlot] at h
    split at h
    · cases h
    split at h
    next hq =>
      obtain rfl := Option.some.inj h
      exact ⟨mem_cons_self, hq⟩
    next =>
      obtain ⟨hmem, hlive⟩ := ih h
      exact ⟨mem_cons_of_mem _ hmem, hlive⟩

/-- An entry with the name stops the scan. -/
theorem Named.checkSlot_hit {e : Entry} (hne : name ≠ []) (hlive : LiveEntry e) (h : Named name e) :
    checkSlot e name = .hit := by
  rw [checkSlot_eq hne h.startsWith.zero_not_mem, if_neg hlive.1, if_neg hlive.2.1,
    if_pos ⟨hlive, h.startsWith⟩]

/-- Where the scan finds nothing, nothing has the name. -/
theorem namedSlot_of_scan_none (hne : name ≠ []) (h : scanDir img name slots = some none) :
    namedSlot img name slots = none := by
  induction slots with
  | nil => rfl
  | cons q qs ih =>
    rw [namedSlot]
    rw [scanDir] at h
    split
    · rfl
    next hend =>
    split
    next hq =>
      rw [hq.2.checkSlot_hit hne hq.1] at h
      cases h
    next =>
      cases hcheck : checkSlot (img.slot q) name with
      | skip =>
        rw [hcheck] at h
        exact ih h
      | stop => exact absurd (marker_of_stop hcheck) hend
      | hit =>
        rw [hcheck] at h
        cases h
      | panic =>
        rw [hcheck] at h
        cases h

theorem Denotes.unique (hg : Geometry vol) (h : Denotes vol img c name p)
    (h' : Denotes vol img c name q) : p = q := by
  obtain ⟨l, hl, hp⟩ := h
  obtain ⟨l', hl', hq⟩ := h'
  obtain rfl := hl.unique hg.not_stop hl'
  exact Option.some.inj (hp.symm.trans hq)

/-- Names lead to one directory. -/
theorem Descends.unique (hg : Geometry vol) (h : Descends vol img c names c')
    (h' : Descends vol img c names c'') : c' = c'' := by
  induction h with
  | done c =>
    cases h'
    rfl
  | skip _ ih =>
    cases h' with
    | skip h' => exact ih h'
    | step hne => exact absurd rfl hne
  | step hne hp _ _ ih =>
    cases h' with
    | skip => exact absurd rfl hne
    | step _ hq _ h' =>
      obtain rfl := hp.unique hg hq
      exact ih h'

/-- A name in a directory, and the names behind it. -/
theorem descends_cons_iff (hne : name ≠ []) (hg : Geometry vol) (hl : img.Chain vol c l) :
    Descends vol img c (name :: rest) c' ↔ ∃ q, namedSlot img name (vol.dirSlots l) = some q ∧
      IsDirEntry (img.slot q) ∧ Descends vol img (leadsTo vol (img.slot q)) rest c' := by
  constructor
  · intro h
    cases h with
    | skip => exact absurd rfl hne
    | step _ hp hd h =>
      obtain ⟨l', hl', hp⟩ := hp
      obtain rfl := hl.unique hg.not_stop hl'
      exact ⟨_, hp, hd, h⟩
  · rintro ⟨q, hq, hd, h⟩
    exact .step hne ⟨l, hl, hq⟩ hd h

/-! ## The walk of `resolve_path` -/

variable (hg : Geometry vol) (hv : view vol d = img)
include hg hv

/-- The walk at a slot that the scan of a directory finds. -/
theorem resolveFrom_scan (hne : name ≠ []) (hrest : rest ≠ []) (hl : img.Chain vol c l)
    (hscan : scanDir img name (vol.dirSlots l) = some (some p)) :
    resolveFrom vol c (name :: rest) d =
      resolveFrom vol (startOf (img.slot p)) rest d := by
  have hfind := findEntryInDir_eq hg hv hl name
  rw [hscan] at hfind
  obtain ⟨pre, post, hslots, -⟩ := scanDir_found hscan
  have hmem := mem_iff_append.mpr ⟨_, _, hslots⟩
  have hvalid := hl.valid_of_mem (mem_dirSlots.mp hmem).1
  exact resolveFrom_found hne hrest hfind (readEntryData_shows hg hv hvalid p.2)

/-- The walk in step ends where the names lead. -/
theorem InStep.resolveFrom_eq (h : InStep vol img c names) (last : Bytes) :
    (∃ c', Descends vol img c names c' ∧ resolveFrom vol c (names ++ [last]) d = .ok (c', last) d) ∨
    (∀ c', ¬ Descends vol img c names c') ∧
      resolveFrom vol c (names ++ [last]) d = .err .noPath d := by
  induction h with
  | done c => exact .inl ⟨c, .done c, rfl⟩
  | @skip c rest h ih =>
    rw [cons_append, resolveFrom_nil_cons (by simp)]
    refine ih.imp ?_ ?_
    · rintro ⟨c', hreach, hrun⟩
      exact ⟨c', .skip hreach, hrun⟩
    · rintro ⟨hnone, hrun⟩
      refine ⟨fun c' hreach => ?_, hrun⟩
      cases hreach with
      | skip hreach => exact hnone c' hreach
      | step hne => exact absurd rfl hne
  | @missing c l name rest hne hl hscan =>
    -- nothing starts with the name, so nothing has it
    have hfind := findEntryInDir_eq hg hv hl name
    rw [hscan] at hfind
    refine .inr ⟨fun c' hreach => ?_, resolveFrom_missing hne (by simp) hfind⟩
    obtain ⟨q, hq, -⟩ := (descends_cons_iff hne hg hl).mp hreach
    rw [namedSlot_of_scan_none hne hscan] at hq
    cases hq
  | step hne hl hscan hq hd hlead h ih =>
    -- the entry found may be another one, but it stores the same cluster
    rw [cons_append, resolveFrom_scan hg hv hne (by simp) hl hscan]
    rw [hlead] at ih ⊢
    refine ih.imp ?_ ?_
    · rintro ⟨c', hreach, hrun⟩
      exact ⟨c', (descends_cons_iff hne hg hl).mpr ⟨_, hq, hd, hreach⟩, hrun⟩
    · rintro ⟨hnone, hrun⟩
      refine ⟨fun c' hreach => ?_, hrun⟩
      obtain ⟨q', hq', -, hreach⟩ := (descends_cons_iff hne hg hl).mp hreach
      obtain rfl := Option.some.inj (hq.symm.trans hq')
      exact hnone c' hreach

/-- The walk from a cluster does what the names say. -/
def RightFrom (vol : FatVolume) (d : Disk) (c : Nat) (names : List Bytes) (last : Bytes) : Prop :=
  (∀ c', Descends vol (view vol d) c names c' →
    resolveFrom vol c (names ++ [last]) d = .ok (c', last) d) ∧
  ((∀ c', ¬ Descends vol (view vol d) c names c') →
    resolveFrom vol c (names ++ [last]) d = .err .noPath d)

omit hg hv in
/-- A walk that is right behind an empty name. -/
theorem RightFrom.of_skip (h : RightFrom vol d c ([] :: rest) last) :
    RightFrom vol d c rest last := by
  obtain ⟨hok, herr⟩ := h
  rw [cons_append, resolveFrom_nil_cons (by simp)] at hok herr
  refine ⟨fun c' hreach => hok c' (.skip hreach), fun hnone => herr fun c' hreach => ?_⟩
  cases hreach with
  | skip hreach => exact hnone c' hreach
  | step hne => exact absurd rfl hne

/-- The walk that is right behind a name is right from the directory found on. -/
theorem RightFrom.of_step (hne : name ≠ []) (hl : img.Chain vol c l)
    (hscan : scanDir img name (vol.dirSlots l) = some (some p))
    (hq : namedSlot img name (vol.dirSlots l) = some q) (hd : IsDirEntry (img.slot q))
    (hlead : startOf (img.slot p) = leadsTo vol (img.slot q))
    (h : RightFrom vol d c (name :: rest) last) :
    RightFrom vol d (startOf (img.slot p)) rest last := by
  obtain ⟨hok, herr⟩ := h
  rw [cons_append, resolveFrom_scan hg hv hne (by simp) hl hscan, hv] at hok herr
  rw [RightFrom, hv]
  refine ⟨fun c' hreach => hok c' ?_, fun hnone => herr fun c' hreach => ?_⟩
  · exact (descends_cons_iff hne hg hl).mpr ⟨q, hq, hd, hlead ▸ hreach⟩
  · obtain ⟨q', hq', -, hreach⟩ := (descends_cons_iff hne hg hl).mp hreach
    obtain rfl := Option.some.inj (hq.symm.trans hq')
    exact hnone c' (hlead ▸ hreach)

/-- One name on which the walk is right: nothing is found, or what is found stores the cluster of
the directory named. -/
theorem RightFrom.single (hne : name ≠ []) (hl : img.Chain vol c l)
    (h : RightFrom vol d c [name] last) : scanDir img name (vol.dirSlots l) = some none ∨
      ∃ p q, scanDir img name (vol.dirSlots l) = some (some p) ∧
        namedSlot img name (vol.dirSlots l) = some q ∧ IsDirEntry (img.slot q) ∧
        startOf (img.slot p) = leadsTo vol (img.slot q) := by
  obtain ⟨hok, herr⟩ := h
  rw [hv] at hok herr
  have hfind := findEntryInDir_eq hg hv hl name
  cases hscan : scanDir img name (vol.dirSlots l) with
  | none =>
    -- the lookup panics, and so does the walk
    rw [hscan] at hfind
    have hfault : resolveFrom vol c ([name] ++ [last]) d = .fault .panic :=
      resolveFrom_fault hne (by simp) hfind
    rw [hfault] at hok herr
    by_cases hreach : ∃ c', Descends vol img c [name] c'
    · obtain ⟨c', hreach⟩ := hreach
      cases hok c' hreach
    · cases herr (not_exists.mp hreach)
  | some found =>
    cases found with
    | none => exact .inl rfl
    | some p =>
      have hrun : resolveFrom vol c ([name] ++ [last]) d = .ok (startOf (img.slot p), last) d :=
        resolveFrom_scan hg hv hne (by simp) hl hscan
      rw [hrun] at hok herr
      by_cases hreach : ∃ c', Descends vol img c [name] c'
      · obtain ⟨c', hreach⟩ := hreach
        have hstart := (Prod.mk.inj (Outcome.ok.inj (hok c' hreach)).1).1
        obtain ⟨q, hq, hd, hdone⟩ := (descends_cons_iff hne hg hl).mp hreach
        cases hdone
        exact .inr ⟨p, q, rfl, hq, hd, hstart⟩
      · cases herr (not_exists.mp hreach)

/-- A walk that is right about all initial parts of the names is in step. -/
theorem InStep.of_right (ht : TreeOk vol img) (hdirs : DirsLead vol img) (hc : DirCluster vol img c)
    (h : ∀ part, part <+: names → ∃ last, RightFrom vol d c part last) :
    InStep vol img c names := by
  induction names generalizing c with
  | nil => exact .done c
  | cons name rest ih =>
    by_cases hne : name = []
    · subst hne
      refine .skip (ih hc fun part hpart => ?_)
      obtain ⟨last, hright⟩ := h ([] :: part) (cons_prefix_cons.mpr ⟨rfl, hpart⟩)
      exact ⟨last, hright.of_skip⟩
    · obtain ⟨l, hl⟩ := ht c hc
      obtain ⟨last, hone⟩ := h [name] (cons_prefix_cons.mpr ⟨rfl, nil_prefix⟩)
      rcases hone.single hg hv hne hl with hscan | ⟨p, q, hscan, hq, hd, hlead⟩
      · exact .missing hne hl hscan
      · obtain ⟨hmem, hlive, -⟩ := namedSlot_some hq
        obtain ⟨hql, hi⟩ := mem_dirSlots.mp hmem
        have hdir := hdirs q (hc.of_chain hl _ hql) hi hlive hd
        refine .step hne hl hscan hq hd hlead (ih (hlead ▸ hdir) fun part hpart => ?_)
        obtain ⟨last, hright⟩ := h (name :: part) (cons_prefix_cons.mpr ⟨rfl, hpart⟩)
        exact ⟨last, hright.of_step hg hv hne hl hscan hq hd hlead⟩

omit hg hv in
theorem InStep.of_append (h : InStep vol img c (names ++ rest)) : InStep vol img c names := by
  generalize hall : names ++ rest = all at h
  induction h generalizing names with
  | done c =>
    obtain ⟨rfl, -⟩ := append_eq_nil_iff.mp hall
    exact .done c
  | skip h ih =>
    cases names with
    | nil => exact .done _
    | cons name names =>
      obtain ⟨rfl, htail⟩ := cons.inj hall
      exact .skip (ih htail)
  | missing hne hl hscan =>
    cases names with
    | nil => exact .done _
    | cons name names =>
      obtain ⟨rfl, -⟩ := cons.inj hall
      exact .missing hne hl hscan
  | step hne hl hscan hq hd hlead h ih =>
    cases names with
    | nil => exact .done _
    | cons name names =>
      obtain ⟨rfl, htail⟩ := cons.inj hall
      exact .step hne hl hscan hq hd hlead (ih htail)

end Names

/-! ## The result -/

section Paths

variable {path : Bytes}

theorem resolvePath_eq (vol : FatVolume) (path : Bytes) : (resolvePath vol path : DevOp Disk _) =
      resolveFrom vol vol.rootCluster (pathParents path ++ [pathLast path]) := by
  rw [resolvePath, ← pathComponents_eq]
  split
  next hempty =>
    rw [pathComponents, hempty]
    rfl
  next => rfl

theorem resolvesByName_iff : ResolvesByName vol d path ↔
    RightFrom vol d vol.rootCluster (pathParents path) (pathLast path) := by
  rw [ResolvesByName, RightFrom, resolvePath_eq]

/-- A path whose lookups are in step is resolved by its names. -/
theorem InStep.resolvesByName (hg : Geometry vol)
    (h : InStep vol (view vol d) vol.rootCluster (pathParents path)) :
    ResolvesByName vol d path := by
  rw [resolvesByName_iff]
  rcases h.resolveFrom_eq hg rfl (pathLast path) with ⟨c', hreach, hrun⟩ | ⟨hnone, hrun⟩
  · refine ⟨fun c hc => ?_, fun hnone => absurd hreach (hnone c')⟩
    obtain rfl := hreach.unique hg hc
    exact hrun
  · exact ⟨fun c hc => absurd hc (hnone c), fun _ => hrun⟩

end Paths

/-- **When `resolve_path` walks through directories by their names.** The volume is well formed, and
its directory entries lead to directories, where the `..` of a directory in the root stores 0. Then
`resolve_path` is right about a path and all its initial parts exactly when each lookup of a
directory name finds nothing, or an entry that stores the cluster of the directory that has the
name. -/
theorem resolve_by_name_iff (vol : FatVolume) (d : Disk) (path : Bytes) (hg : Geometry vol)
    (hw : WellFormed vol (view vol d)) (hdirs : DirsLead vol (view vol d)) :
    (∀ path', pathParents path' <+: pathParents path → ResolvesByName vol d path') ↔
      InStep vol (view vol d) vol.rootCluster (pathParents path) := by
  constructor
  · intro h
    refine .of_right hg rfl (hw.treeOk hg) hdirs .root fun part hpart => ?_
    obtain ⟨path', rfl⟩ := exists_path_of_prefix hpart
    exact ⟨pathLast path', resolvesByName_iff.mp (h path' hpart)⟩
  · rintro h path' ⟨rest, hrest⟩
    rw [← hrest] at h
    exact h.of_append.resolvesByName hg

/-! ## On the sample volumes -/

/-- The directories of a volume whose chains have one cluster each lead to directories, if every
entry leads to one of the list. -/
theorem dirsLead_of_single {dirs : List Nat} (hdir : ∀ c, DirCluster vol img c ↔ c ∈ dirs)
    (hlead : ∀ c ∈ dirs, ∀ i < vol.slotsPerCluster, LiveEntry (img.slot (c, i)) →
      IsDirEntry (img.slot (c, i)) → leadsTo vol (img.slot (c, i)) ∈ dirs) : DirsLead vol img := by
  rintro ⟨c, i⟩ hc hi hlive hd
  exact (hdir _).mpr (hlead c ((hdir c).mp hc) i hi hlive hd)

theorem second_dirsLead : DirsLead tinyVol secondImage :=
  dirsLead_of_single second_dirCluster (by decide +kernel)

theorem sample_dirsLead : DirsLead tinyVol sampleImage :=
  dirsLead_of_single sample_dirCluster (by decide +kernel)

theorem second_inStep : InStep tinyVol secondImage 2 [[0x44]] :=
  .step (p := (2, 2)) (q := (2, 2)) (by decide) (second_chain (by decide)) (by decide +kernel)
    (by decide +kernel) (by decide +kernel) (by decide +kernel) (.done _)

/-- Down from the root into `D`. -/
theorem second_descends {c : Nat} (h : Descends tinyVol secondImage 4 rest c) :
    Descends tinyVol secondImage 2 ([0x44] :: rest) c := by
  have hlead : leadsTo tinyVol (secondImage.slot (2, 2)) = 4 := by decide +kernel
  exact .step (p := (2, 2)) (by decide) ⟨[2], second_chain (by decide), by decide +kernel⟩
    (by decide +kernel) (hlead ▸ h)

/-- The path `/D/G` on the volume with the directory `D`. -/
theorem resolve_by_name_iff_second : ResolvesByName tinyVol secondDisk [0x2F, 0x44, 0x2F, 0x47] ∧
    Descends tinyVol secondImage 2 [[0x44]] 4 := by
  have hparents : pathParents [0x2F, 0x44, 0x2F, 0x47] = [[0x44]] := by decide
  exact ⟨(resolve_by_name_iff tinyVol secondDisk [0x2F, 0x44, 0x2F, 0x47] tiny_geometry
    second_wellFormed second_dirsLead).mpr (hparents ▸ second_inStep) _ prefix_rfl,
    second_descends (.done _)⟩

/-- The path `/F/X` leads through a regular file, and `resolve_path` returns the cluster of its
data. The path `/D/../X` leads to the root directory, and `resolve_path` returns the cluster 0. -/
theorem resolve_leaves_tree : WellFormed tinyVol sampleImage ∧ DirsLead tinyVol sampleImage ∧
    (∀ c, ¬ Descends tinyVol sampleImage 2 (pathParents [0x2F, 0x46, 0x2F, 0x58]) c) ∧
    resolvePath tinyVol [0x2F, 0x46, 0x2F, 0x58] sampleDisk =
      .ok (5, [0x58]) sampleDisk ∧
    WellFormed tinyVol secondImage ∧ DirsLead tinyVol secondImage ∧
    Descends tinyVol secondImage 2 (pathParents [0x2F, 0x44, 0x2F, 0x2E, 0x2E, 0x2F, 0x58]) 2 ∧
    resolvePath tinyVol [0x2F, 0x44, 0x2F, 0x2E, 0x2E, 0x2F, 0x58] secondDisk =
      .ok (0, [0x58]) secondDisk := by
  obtain ⟨d, hrun⟩ : ∃ d, resolvePath tinyVol [0x2F, 0x46, 0x2F, 0x58] sampleDisk =
      .ok (5, [0x58]) d := by decide +kernel
  obtain ⟨d', hrun'⟩ : ∃ d, resolvePath tinyVol [0x2F, 0x44, 0x2F, 0x2E, 0x2E, 0x2F, 0x58]
      secondDisk = .ok (0, [0x58]) d := by decide +kernel
  obtain rfl := (resolvePath_readOnly _ _).of_ok hrun
  obtain rfl := (resolvePath_readOnly _ _).of_ok hrun'
  refine ⟨sample_wellFormed, sample_dirsLead, ?_, hrun, second_wellFormed, second_dirsLead,
    ?_, hrun'⟩
  · have hparents : pathParents [0x2F, 0x46, 0x2F, 0x58] = [[0x46]] := by decide
    rw [hparents]
    intro c hreach
    obtain ⟨q, hq, hd, -⟩ := (descends_cons_iff (by decide) tiny_geometry
      (sample_chain (by decide))).mp hreach
    have hslot : namedSlot sampleImage [0x46] (tinyVol.dirSlots [2]) = some (2, 3) := by
      decide +kernel
    obtain rfl := Option.some.inj (hslot.symm.trans hq)
    exact absurd hd (by decide +kernel)
  · have hparents : pathParents [0x2F, 0x44, 0x2F, 0x2E, 0x2E, 0x2F, 0x58] =
        [[0x44], [0x2E, 0x2E]] := by decide
    have hroot : leadsTo tinyVol (secondImage.slot (4, 1)) = 2 := by decide +kernel
    rw [hparents]
    exact second_descends (.step (p := (4, 1)) (by decide)
      ⟨[4], second_chain (by decide), by decide +kernel⟩ (by decide +kernel) (hroot ▸ .done _))

end PlanckOS.Fat32
