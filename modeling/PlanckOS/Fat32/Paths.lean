import PlanckOS.Fat32.Tree

/-!
# Paths of directories

A path whose parent components select subdirectories (`WalkDirs`, `DirPath`) goes down the tree. In
a well-formed volume every directory has one depth (`Depth.unique`), so the walk never comes back to
a directory it has left. Therefore a change inside the directory at the end of the path does not
change where the path leads (`resolveFrom_steady`).
-/

set_option autoImplicit false

namespace PlanckOS.Fat32

open Lib.Fallible FatVolume List

variable {vol : FatVolume} {img : Image} {c c' n : Nat}

/-! ## The first clusters of directories -/

/-- Cluster `c` is the first one of a directory of the tree. -/
def DirHead (vol : FatVolume) (img : Image) (c : Nat) : Prop :=
  vol.Valid c ∧ ∃ o : Owner, o.Live vol img ∧ o.IsDir img ∧ o.start vol img = c

section Heads

variable {l l' : List Nat}

theorem DirHead.dirCluster (h : DirHead vol img c) : DirCluster vol img c := by
  obtain ⟨hv, o, ho, hd, rfl⟩ := h
  cases o with
  | none => exact .root
  | some p => exact .child ho.1 ho.2.1 hd hv

/-- Different directories have different clusters. -/
theorem DirHead.disjoint (hw : WellFormed vol img) (h : DirHead vol img c) (h' : DirHead vol img c')
    (hne : c ≠ c') (hl : img.Chain vol c l) (hl' : img.Chain vol c' l') : ∀ x ∈ l, x ∉ l' := by
  obtain ⟨-, o, ho, -, rfl⟩ := h
  obtain ⟨-, o', ho', -, rfl⟩ := h'
  have hoo : o ≠ o' := fun heq => hne (heq ▸ rfl)
  exact fun x hx hx' => hw.disjoint o o' ho ho' hoo x ⟨l, hl, hx⟩ ⟨l', hl', hx'⟩

end Heads

/-! ## Depth -/

/-- The directory that starts at the cluster is that many steps below the root. -/
inductive Depth (vol : FatVolume) (img : Image) : Nat → Nat → Prop
  | root : Depth vol img vol.rootCluster 0
  | child {c n : Nat} {l : List Nat} {p : Slot} (h : Depth vol img c n) (hl : img.Chain vol c l)
      (hp : p ∈ vol.dirSlots l) (he : Subdirectory (img.slot p))
      (hv : vol.Valid (startOf (img.slot p))) : Depth vol img (startOf (img.slot p)) (n + 1)

section Depth

variable {m : Nat}

theorem Depth.dirHead (hg : Geometry vol) (h : Depth vol img c n) : DirHead vol img c := by
  induction h with
  | root => exact ⟨hg.root_valid, none, trivial, trivial, rfl⟩
  | @child c n l p _ hl hp he hv ih =>
    obtain ⟨hp1, hp2⟩ := mem_dirSlots.mp hp
    have hlive : Owner.Live vol img (some p) :=
      ⟨ih.dirCluster.of_chain hl _ hp1, hp2, he.1, he.2.2⟩
    exact ⟨hv, some p, hlive, he, rfl⟩

/-- **A directory has one depth.** -/
theorem Depth.unique (hg : Geometry vol) (hw : WellFormed vol img) (h : Depth vol img c n)
    (h' : Depth vol img c m) : n = m := by
  -- two owners with the same start cluster are the same
  have hsame : ∀ o o' : Owner, o.Live vol img → o'.Live vol img → vol.Valid (o.start vol img) →
      o.start vol img = o'.start vol img → o = o' := by
    intro o o' ho ho' hv heq
    by_contra hne
    refine hw.disjoint o o' ho ho' hne _ (hw.holds_start ho hv) ?_
    rw [heq]
    exact hw.holds_start ho' (heq ▸ hv)
  have hlive : ∀ {c n : Nat} {l : List Nat} {p : Slot}, Depth vol img c n → img.Chain vol c l →
      p ∈ vol.dirSlots l → Subdirectory (img.slot p) → Owner.Live vol img (some p) := by
    intro c n l p h hl hp he
    obtain ⟨hp1, hp2⟩ := mem_dirSlots.mp hp
    exact ⟨(h.dirHead hg).dirCluster.of_chain hl _ hp1, hp2, he.1, he.2.2⟩
  induction h generalizing m with
  | root =>
    generalize hroot : vol.rootCluster = c at h'
    cases h' with
    | root => rfl
    | @child c' n l p h' hl hp he hv =>
      have := hsame none (some p) trivial (hlive h' hl hp he) hg.root_valid hroot
      cases this
  | @child c n l p h hl hp he hv ih =>
    generalize hstart : startOf (img.slot p) = c' at h'
    cases h' with
    | root =>
      have := hsame none (some p) trivial (hlive h hl hp he) hg.root_valid hstart.symm
      cases this
    | @child c' m l' p' h' hl' hp' he' hv' =>
      have hpp := hsame (some p) (some p') (hlive h hl hp he) (hlive h' hl' hp' he') hv
        hstart
      obtain rfl := Option.some.inj hpp
      -- the two parents share the cluster of the slot
      have hcc : c = c' := by
        by_contra hne
        exact (h.dirHead hg).disjoint hw (h'.dirHead hg) hne hl hl' _ (mem_dirSlots.mp hp).1
          (mem_dirSlots.mp hp').1
      subst hcc
      rw [ih h']

end Depth

/-! ## Walks through subdirectories -/

/-- Every component but the last selects a subdirectory with a cluster, if anything. -/
def WalkDirs (vol : FatVolume) (img : Image) (final : Nat → Bytes → Prop) : Nat → List Bytes → Prop
  | c, [] => final c []
  | c, [name] => final c name
  | c, component :: rest =>
      if component = [] then WalkDirs vol img final c rest
      else ∀ p, Selects vol img c component p →
        Subdirectory (img.slot p) ∧ startOf (img.slot p) ≠ 0 ∧
          WalkDirs vol img final (startOf (img.slot p)) rest

/-- The walk of a path from the root. -/
def DirPath (vol : FatVolume) (img : Image) (path : Bytes) (final : Nat → Bytes → Prop) : Prop :=
  WalkDirs vol img final vol.rootCluster (pathComponents path)

section Walk

variable {d d' d₁ : Disk} {img' : Image} {name : Bytes}
  {final : Nat → Bytes → Prop} {components : List Bytes} {path : Bytes}

/-- A subdirectory selected in a directory is one step further down. -/
theorem Depth.selects (hw : WellFormed vol img) (hg : Geometry vol) (h : Depth vol img c n)
    {p : Slot} (hsel : Selects vol img c name p) (he : Subdirectory (img.slot p))
    (h0 : startOf (img.slot p) ≠ 0) : Depth vol img (startOf (img.slot p)) (n + 1) := by
  obtain ⟨hp, hi, hlive⟩ := hsel.in_tree (h.dirHead hg).dirCluster
  obtain ⟨l, pre, post, hl, hslots, -⟩ := hsel
  obtain ⟨m, hm⟩ := (hw.heads (some p) ⟨hp, hi, hlive, he.2.2⟩).resolve_left h0
  exact .child h hl (mem_iff_append.mpr ⟨_, _, hslots⟩) he hm.head_valid

theorem scanDir_congr {target : Bytes} {slots : List Slot}
    (h : ∀ p ∈ slots, checkSlot (img'.slot p) target = checkSlot (img.slot p) target) :
    scanDir img' target slots = scanDir img target slots := by
  induction slots with
  | nil => rfl
  | cons p ps ih =>
    rw [scanDir, scanDir, h p mem_cons_self, ih fun q hq => h q (mem_cons_of_mem _ hq)]

/-- The images agree on all directories except the one that starts at `c`. -/
def AgreeBut (vol : FatVolume) (img img' : Image) (c : Nat) : Prop :=
  ∀ h k, Depth vol img h k → h ≠ c → ∀ l, img.Chain vol h l →
    img'.Chain vol h l ∧ ∀ p ∈ vol.dirSlots l, img'.slot p = img.slot p

variable (hg : Geometry vol) (hv : view vol d = img) (hw : WellFormed vol img)
include hg hv hw

/-- **Where a path leads does not depend on the directory at its end.** -/
theorem resolveFrom_steady (hd : Depth vol img c n) (hwalk : WalkDirs vol img final c components) :
    (resolveFrom vol c components d).Sat
      (fun r d₁ => d₁ = d ∧ final r.1 r.2 ∧ (∃ m, n ≤ m ∧ Depth vol img r.1 m) ∧
        ∀ d' img', view vol d' = img' → AgreeBut vol img img' r.1 →
          resolveFrom vol c components d' = .ok r d')
      fun _ d₁ => d₁ = d := by
  induction components generalizing c n with
  | nil => exact ⟨rfl, hwalk, ⟨n, le_rfl, hd⟩, fun _ _ _ _ => rfl⟩
  | cons component rest ih =>
    cases rest with
    | nil => exact ⟨rfl, hwalk, ⟨n, le_rfl, hd⟩, fun _ _ _ _ => rfl⟩
    | cons next rest =>
      rw [WalkDirs] at hwalk
      by_cases hempty : component = []
      · simp only [resolveFrom, if_pos hempty] at hwalk ⊢
        exact ih hd hwalk
      · simp only [resolveFrom, if_neg hempty] at hwalk ⊢
        have hc := (hd.dirHead hg).dirCluster
        obtain ⟨l, hl⟩ := hw.treeOk hg c hc
        apply sat_bind
        rw [findEntryInDir_eq hg hv hl]
        cases hscan : scanDir img component (vol.dirSlots l) with
        | none => trivial
        | some o =>
          cases o with
          | none => rfl
          | some p =>
            obtain ⟨pre, post, hslots, hskip, hhit⟩ := scanDir_found hscan
            have hsel : Selects vol img c component p := ⟨l, pre, post, hl, hslots, hskip, hhit⟩
            have hpmem := mem_iff_append.mpr ⟨_, _, hslots⟩
            obtain ⟨he, h0, hrest⟩ := hwalk p hsel
            obtain ⟨m, hm⟩ := hw.treeOk hg _ (hsel.in_tree hc).1
            apply sat_bind_ok (readEntryData_shows hg hv hm.head_valid p.2)
            refine (ih (hd.selects hw hg hsel he h0) hrest).mono ?_ fun _ _ h => h
            rintro r d₁ ⟨rfl, hfinal, ⟨k, hk, hdk⟩, hsteady⟩
            refine ⟨rfl, hfinal, ⟨k, by omega, hdk⟩, ?_⟩
            intro d' img' hv' hagree
            -- the directory is further up than the one at the end
            have hne : c ≠ r.1 := by
              rintro rfl
              have := hd.unique hg hw hdk
              omega
            obtain ⟨hl', hsame⟩ := hagree c n hd hne l hl
            have hfind : vol.findEntryInDir c component d' = .ok (some p) d' := by
              have hcheck : ∀ q ∈ vol.dirSlots l,
                  checkSlot (img'.slot q) component = checkSlot (img.slot q) component :=
                fun q hq => congrArg (checkSlot · component) (hsame q hq)
              rw [findEntryInDir_eq hg hv' hl', scanDir_congr hcheck, hscan]
              rfl
            have hentry : vol.readEntryData p.1 p.2 d' = .ok (img.slot p) d' := by
              rw [readEntryData_shows hg hv' hm.head_valid p.2]
              exact congrArg (Outcome.ok · d') (hsame p hpmem)
            refine (Op.bind_ok hfind).trans ((Op.bind_ok hentry).trans ?_)
            exact hsteady d' img' hv' hagree
      · simp

/-- The same for a path from the root. -/
theorem resolvePath_steady (hpath : DirPath vol img path final) : (resolvePath vol path d).Sat
      (fun r d₁ => d₁ = d ∧ final r.1 r.2 ∧ (∃ m, Depth vol img r.1 m) ∧
        ∀ d' img', view vol d' = img' → AgreeBut vol img img' r.1 →
          resolvePath vol path d' = .ok r d') fun _ d₁ => d₁ = d := by
  simp only [resolvePath]
  by_cases hempty : path.dropWhile (· == 0x2F) = []
  · have hroot : final vol.rootCluster [] := by
      rw [DirPath, pathComponents, hempty] at hpath
      exact hpath
    simp only [if_pos hempty]
    exact ⟨rfl, hroot, ⟨0, .root⟩, fun _ _ _ _ => rfl⟩
  · simp only [if_neg hempty]
    refine (resolveFrom_steady hg hv hw .root hpath).mono ?_ fun _ _ h => h
    rintro r d₁ ⟨rfl, hfinal, ⟨m, -, hm⟩, hsteady⟩
    exact ⟨rfl, hfinal, ⟨m, hm⟩, hsteady⟩

end Walk

end PlanckOS.Fat32
