import PlanckOS.Fat32.Opening
import PlanckOS.Lib.Transition

/-!
# Isolation of files

A handle that `f_open` returned, without truncation, for a regular file of a well-formed volume
stays attached to its slot through any run of calls (`attached_of_run`). Each of these calls leaves
the table entries, in every copy of the table, and the data of all clusters of other files and of
directories unchanged (`calls_isolated`).

This rests on `f_open` walking through directories. The lookup takes an entry whose name only starts
with the path component; when that is a regular file, its data is read as a directory, and the
handle can be on any cluster its bytes name (`forged_slot_opened`).
-/

set_option autoImplicit false

namespace PlanckOS.Fat32

open Lib.Transition FatVolume

/-! ## Runs of calls -/

/-- The states that runs of calls from `s₀` visit. -/
abbrev CallReach (vol : FatVolume) (s₀ : OpenFile Disk) : OpenFile Disk → Prop :=
  Reach (fun s => s = s₀) (fun _ (_ : Call) => True) fun s call s' =>
    runCall (some vol) s call = some s'

/-- The last component of the path, when found, is the name of a regular file. -/
def SelectsRegular (vol : FatVolume) (img : Image) (c : Nat) (name : Bytes) : Prop :=
  ∀ p, Selects vol img c name p → ¬ IsDirEntry (img.slot p)

section Runs

variable {vol : FatVolume} {d d₁ : Disk} {img : Image} {path : Bytes} {flags : Nat}
  {file : File}

/-- `f_open` of a regular file, without truncation, attaches the handle. -/
theorem attached_of_open (hg : Geometry vol) (hm : Mirrored vol d)
    (hw : WellFormed vol (view vol d))
    (hpath : PathInTree vol (view vol d) path (SelectsRegular vol (view vol d)))
    (hflags : flags &&& FA_CREATE_ALWAYS = 0)
    (hopen : fOpen (some vol) path flags d = .ok file d₁) :
    ∃ img l, Shows vol d₁ img ∧ Attached vol img file l := by
  have hs := hm.shows
  have htree := hw.treeOk hg
  have hsat : (openVol vol path flags d).Sat
      (fun f d' => ∃ img l, Shows vol d' img ∧ Attached vol img f l) fun _ _ => True := by
    apply openVol_sat hg rfl htree hpath (fun _ => trivial)
    · intro c name p hc hfinal hsel
      obtain ⟨hplace, hindex, hlive⟩ := hsel.in_tree hc
      obtain ⟨m, hchain⟩ := htree _ hplace
      refine (openExisting_sat hg rfl hchain.head_valid hflags).mono ?_ fun _ _ _ => trivial
      rintro f d' ⟨rfl, rfl⟩
      obtain ⟨l, hatt⟩ := oldFile_attached hg hw hplace hindex hlive (hfinal p hsel)
      exact ⟨_, l, hs, hatt⟩
    · intro c name hc _ _
      refine (openMissing_sat hg hs htree hc name).mono ?_ fun _ _ _ => trivial
      rintro f d' ⟨new, p, img', rfl, hcreated, hs'⟩
      exact ⟨img', [new], hs', hcreated.attached hg hw⟩
  exact hsat.of_ok hopen

/-- **Every run of calls keeps the handle attached to its slot**, and the reserved entries of the
table as they are. -/
theorem attached_of_run {s₀ s : OpenFile Disk} {l : List Nat} (hg : Geometry vol)
    (hs : Shows vol s₀.dev img) (h : Attached vol img s₀.file l) (hrun : CallReach vol s₀ s) :
    (∃ img' l', Shows vol s.dev img' ∧ Attached vol img' s.file l' ∧
      ∀ x < 2, img'.fat x = img.fat x) ∧ s.file.slot = s₀.file.slot := by
  refine Reach.invariant (P := fun s => (∃ img' l', Shows vol s.dev img' ∧
    Attached vol img' s.file l' ∧ ∀ x < 2, img'.fat x = img.fat x) ∧
      s.file.slot = s₀.file.slot) ?_ ?_ hrun
  · rintro s rfl
    exact ⟨⟨img, l, hs, h, fun _ _ => rfl⟩, rfl⟩
  · rintro s call s' ⟨⟨img', l', hs', h', hres⟩, hslot⟩ - hcall
    have hk := call_kept hg hs' h'.handle h'.others.first hcall
    obtain ⟨img'', l'', hs'', h'', hslot', -, -, hres'⟩ := h'.of_kept hg hk
    exact ⟨⟨img'', l'', hs'', h'', fun x hx => (hres' x hx).trans (hres x hx)⟩, hslot'.trans hslot⟩

/-- What it means for a cluster to be left alone. -/
theorem Shows.cluster_unchanged {d' : Disk} {img' : Image} {x : Nat} (hg : Geometry vol)
    (hs : Shows vol d img) (hs' : Shows vol d' img') (hx : vol.Valid x)
    (hfat : img'.fat x = img.fat x) (hdata : img'.data x = img.data x) :
    (∀ k < vol.numFats, rawEntry vol d' k x = rawEntry vol d k x) ∧
      ∀ o < vol.clusterSize, clusterByte vol d' x o = clusterByte vol d x o := by
  constructor
  · intro k hk
    rw [hs.rawEntry_eq hg hk hx.2, hs'.rawEntry_eq hg hk hx.2, hfat]
  · intro o ho
    have hbyte := congrFun hdata o
    rw [← hs.view_eq, ← hs'.view_eq, view_data hx ho, view_data hx ho] at hbyte
    exact hbyte

/-- **Isolation.** A handle is opened, without truncation, along a path whose parent components lead
to directories and whose last component is no directory. Whatever calls are made on it, every one of
them leaves all clusters of other live entries and of directories unchanged, and the slot of the
handle as well. -/
theorem calls_isolated (vol : FatVolume) (d d₁ : Disk) (path : Bytes) (flags : Nat)
    (file : File) (hg : Geometry vol) (hm : Mirrored vol d) (hw : WellFormed vol (view vol d))
    (hpath : PathInTree vol (view vol d) path (SelectsRegular vol (view vol d)))
    (hflags : flags &&& FA_CREATE_ALWAYS = 0) (hopen : fOpen (some vol) path flags d = .ok file d₁)
    (s s' : OpenFile Disk) (call : Call) (hrun : CallReach vol ⟨d₁, file⟩ s)
    (hcall : runCall (some vol) s call = some s') :
    (∀ x, Protected vol (view vol s.dev) file.slot x →
      (∀ k < vol.numFats, rawEntry vol s'.dev k x = rawEntry vol s.dev k x) ∧
        ∀ o < vol.clusterSize, clusterByte vol s'.dev x o = clusterByte vol s.dev x o) ∧
    (view vol s'.dev).slot file.slot = (view vol s.dev).slot file.slot := by
  obtain ⟨img, l, hs, hatt⟩ := attached_of_open hg hm hw hpath hflags hopen
  obtain ⟨⟨img₁, l₁, hs₁, hatt₁, -⟩, hslot⟩ := attached_of_run hg hs hatt hrun
  have hk := call_kept hg hs₁ hatt₁.handle hatt₁.others.first hcall
  obtain ⟨img₂, l₂, hs₂, -, -, hentry, hprot, -⟩ := hatt₁.of_kept hg hk
  rw [hs₁.view_eq, hs₂.view_eq]
  rw [hslot] at hentry hprot
  refine ⟨?_, hentry⟩
  intro x hx
  exact hs₁.cluster_unchanged hg hs₂ hx.valid (hprot x hx).1 (hprot x hx).2

end Runs

/-! ## On the sample volume -/

/-- A lookup in a directory of one cluster of the sample volume. -/
theorem sample_find {c : Nat} {target : Bytes} {r : Option Slot} (hc : c ∈ [2, 3, 4, 5, 6])
    (h : scanDir sampleImage target (tinyVol.dirSlots [c]) = some r) :
    tinyVol.findEntryInDir c target sampleDisk = .ok r sampleDisk := by
  rw [findEntryInDir_eq tiny_geometry rfl (sample_chain hc), h]
  rfl

theorem sample_selects {c : Nat} {target : Bytes} {p q : Slot} (hc : c ∈ [2, 3, 4, 5, 6])
    (h : scanDir sampleImage target (tinyVol.dirSlots [c]) = some (some p))
    (hq : Selects tinyVol sampleImage c target q) : q = p :=
  hq.eq_of_scan tiny_geometry (sample_chain hc) h

/-- Writing to the file `F` of the sample volume leaves the file `G` alone. -/
theorem calls_isolated_sample :
    ∃ s', runCall (some tinyVol) ⟨sampleDisk, oldFile 3 (2, 3) (sampleImage.slot (2, 3))⟩
        (.write [0x58]) = some s' ∧
      ∀ o < tinyVol.clusterSize, clusterByte tinyVol s'.dev 6 o =
        clusterByte tinyVol sampleDisk 6 o := by
  have hscan : scanDir sampleImage [0x46] (tinyVol.dirSlots [2]) = some (some (2, 3)) := by
    decide +kernel
  have hopen : fOpen (some tinyVol) [0x2F, 0x46] 3 sampleDisk =
      .ok (oldFile 3 (2, 3) (sampleImage.slot (2, 3))) sampleDisk :=
    fOpen_unchanged (by decide) (by decide) (by decide +kernel)
  have hpath : PathInTree tinyVol sampleImage [0x2F, 0x46]
      (SelectsRegular tinyVol sampleImage) := by
    intro p hp
    obtain rfl := sample_selects (by decide) hscan hp
    decide +kernel
  obtain ⟨s', hcall⟩ : ∃ s', runCall (some tinyVol)
      ⟨sampleDisk, oldFile 3 (2, 3) (sampleImage.slot (2, 3))⟩ (.write [0x58]) = some s' := by
    decide +kernel
  have h := calls_isolated tinyVol sampleDisk sampleDisk [0x2F, 0x46] 3 _ tiny_geometry
    (tiny_mirrored _) sample_wellFormed hpath (by decide) hopen _ s' _ (.init rfl) hcall
  -- `G` is in slot 2 of the directory `A`
  have hdir := (sample_dirCluster 4).mpr (by decide)
  have hstart : Owner.start tinyVol sampleImage (some (4, 2)) = 6 := by decide +kernel
  have hprot : Protected tinyVol sampleImage (2, 3) 6 := by
    refine ⟨some (4, 2), ⟨hdir, by decide, by decide +kernel, by decide +kernel⟩, by decide,
      [6], ?_, List.mem_cons_self⟩
    rw [hstart]
    exact sample_chain (by decide)
  exact ⟨s', hcall, (h.1 6 hprot).2⟩

/-- The path `/A/G` names a regular file in a directory, but the lookup of `A` returns the file
`AB`. The handle comes from the bytes of that file, and writing to it changes the file `F`. -/
theorem forged_slot_opened :
    Geometry tinyVol ∧ Mirrored tinyVol sampleDisk ∧ WellFormed tinyVol sampleImage ∧
    namedSlot sampleImage [0x41] (tinyVol.dirSlots [2]) = some (2, 2) ∧
    Subdirectory (sampleImage.slot (2, 2)) ∧ startOf (sampleImage.slot (2, 2)) = 4 ∧
    namedSlot sampleImage [0x47] (tinyVol.dirSlots [4]) = some (4, 2) ∧
    ¬ IsDirEntry (sampleImage.slot (4, 2)) ∧
    ∃ file s', (fOpen (some tinyVol) [0x2F, 0x41, 0x2F, 0x47] FA_WRITE : DevOp Disk File)
        sampleDisk = .ok file sampleDisk ∧
      runCall (some tinyVol) ⟨sampleDisk, file⟩ (.write [0x58]) = some s' ∧
      Protected tinyVol sampleImage (4, 2) 5 ∧ Protected tinyVol sampleImage file.slot 5 ∧
      clusterByte tinyVol s'.dev 5 0 ≠ clusterByte tinyVol sampleDisk 5 0 := by
  have hopen : (fOpen (some tinyVol) [0x2F, 0x41, 0x2F, 0x47] FA_WRITE : DevOp Disk File)
      sampleDisk = .ok (oldFile FA_WRITE (3, 0) (sampleImage.slot (3, 0))) sampleDisk :=
    fOpen_unchanged (by decide) (by decide) (by decide +kernel)
  obtain ⟨s', hcall, hchanged⟩ : ∃ s', runCall (some tinyVol)
      ⟨sampleDisk, oldFile FA_WRITE (3, 0) (sampleImage.slot (3, 0))⟩ (.write [0x58]) = some s' ∧
      clusterByte tinyVol s'.dev 5 0 ≠ clusterByte tinyVol sampleDisk 5 0 := by decide +kernel
  -- `F` is in slot 3 of the root directory
  have hF : Owner.Live tinyVol sampleImage (some (2, 3)) :=
    ⟨.root, by decide, by decide +kernel, by decide +kernel⟩
  have hFstart : Owner.start tinyVol sampleImage (some (2, 3)) = 5 := by decide +kernel
  have hholds : Owner.Holds tinyVol sampleImage (some (2, 3)) 5 :=
    ⟨[5], hFstart.symm ▸ sample_chain (by decide), List.mem_cons_self⟩
  exact ⟨tiny_geometry, tiny_mirrored _, sample_wellFormed, by decide +kernel,
    by decide +kernel, by decide +kernel, by decide +kernel, by decide +kernel, _, s', hopen, hcall,
    ⟨_, hF, by decide, hholds⟩, ⟨_, hF, by decide, hholds⟩, hchanged⟩

end PlanckOS.Fat32
