import PlanckOS.Fat32.Enumerate
import PlanckOS.Fat32.Mount
import PlanckOS.Fat32.ReadSafety

/-!
# Which clusters the reading calls address

`f_stat`, `f_open` with `FA_READ`, `f_read`, `f_lseek`, `f_opendir`, `f_readdir` and `f_getlabel` on
a device with any content. `Addresses` is the set of numbers that a call passes to `cluster_to_lba`.
Every function has a test of its own for the end of a chain: `find_entry_in_dir` goes on with the
numbers from 2 to the end mark, `f_read`, `f_readdir` and `f_getlabel` with all numbers below the
end mark, and none of them looks at the size of the table. A start cluster in a directory entry is
taken as it is.

`reads_stay_in_data` says what keeps a sequence of calls inside of the data region: the directories
that the table and the entries lead to, and the chains of their entries, have valid clusters
(`Tidy`), and the calls are `Guarded`: the parents in a path are directories, and neither `f_read`
nor `f_readdir` is called on a handle without a cluster. `reads_leave_data` shows what happens
otherwise.
-/

set_option autoImplicit false

namespace PlanckOS.Fat32

open Lib.Fallible List
open Lib.Transition FatVolume

variable {vol : FatVolume} {d : Disk} {c x len i : Nat} {label path : Bytes} {dir : Dir}

/-! ## The numbers passed to `cluster_to_lba` -/

section Addresses

variable (vol : FatVolume) (d : Disk)

/-- `find_entry_in_dir` reads the cluster `x`. -/
def FindReads (c : Nat) (target : Bytes) (x : Nat) : Prop :=
  ∃ d', Op.Rounds (vol.findEntryStep target : Nat → DevOp Disk _) c d x d' ∧ 2 ≤ x ∧ x < END_MARK

/-- `find_entry_in_dir`, and `read_entry_data` of the slot found, read the cluster `x`. -/
def LookupReads (c : Nat) (target : Bytes) (x : Nat) : Prop :=
  FindReads vol d c target x ∨ ∃ p d', vol.findEntryInDir c target d = .ok (some p) d' ∧ p.1 = x

/-- The walk of `resolve_path` reads the cluster `x`. -/
def ResolveReads : Nat → List Bytes → Nat → Prop
  | _, [], _ => False
  | _, [_], _ => False
  | c, component :: rest, x =>
      if component = [] then ResolveReads c rest x
      else LookupReads vol d c component x ∨
        ∃ p d', vol.findEntryInDir c component d = .ok (some p) d' ∧
          ResolveReads (startOf (entryAt (vol.clusterOn d p.1) p.2)) rest x

/-- `f_readdir` reads the cluster `x`. -/
def ReaddirReads (dir : Dir) (x : Nat) : Prop :=
  ∃ t t', Op.Rounds (readdirStep vol : Unit → DirOp Disk _) () ⟨d, dir⟩ () t ∧ t.dir.ended = false ∧
    nextDirCluster vol t = .ok true t' ∧ t'.dir.currentCluster = x

/-- `f_getlabel` reads the cluster `x`. -/
def GetlabelReads (label : Bytes) (x : Nat) : Prop :=
  ∃ d', Op.Rounds (getlabelStep vol label : Nat → DevOp Disk _) vol.rootCluster d x d'

end Addresses

/-- The device, and the handles that were opened. -/
structure Reader where
  dev : Disk
  files : List File
  dirs : List Dir

/-- A reading call. Handles are numbered in the order in which they were opened. -/
inductive ReadCall where
  | stat (path : Bytes)
  | openRead (path : Bytes)
  | read (i len : Nat)
  | lseek (i offset : Nat)
  | opendir (path : Bytes)
  | readdir (i : Nat)
  | getlabel (label : Bytes)

/-- The state after a call that returned, with a value or with an error. -/
def runReadCall (vol : FatVolume) (s : Reader) : ReadCall → Option Reader
  | .stat path => (fStat (some vol) path s.dev).after.map fun d => { s with dev := d }
  | .openRead path =>
      match (fOpen (some vol) path FA_READ : DevOp Disk File) s.dev with
      | .ok file d => some { s with dev := d, files := s.files ++ [file] }
      | .err _ d => some { s with dev := d }
      | .fault _ => none
  | .read i len => s.files[i]?.bind fun file =>
      (fRead (some vol) len ⟨s.dev, file⟩).after.map fun t =>
        { s with dev := t.dev, files := s.files.set i t.file }
  | .lseek i offset => s.files[i]?.bind fun file =>
      (fLseek (some vol) offset ⟨s.dev, file⟩).after.map fun t =>
        { s with dev := t.dev, files := s.files.set i t.file }
  | .opendir path =>
      match (fOpendir (some vol) path : DevOp Disk Dir) s.dev with
      | .ok dir d => some { s with dev := d, dirs := s.dirs ++ [dir] }
      | .err _ d => some { s with dev := d }
      | .fault _ => none
  | .readdir i => s.dirs[i]?.bind fun dir =>
      (fReaddir (some vol) ⟨s.dev, dir⟩).after.map fun t =>
        { s with dev := t.dev, dirs := s.dirs.set i t.dir }
  | .getlabel label =>
      (fGetlabel (some vol) label s.dev).after.map fun d => { s with dev := d }

/-- The call passes the number `x` to `cluster_to_lba`. -/
def Addresses (vol : FatVolume) (s : Reader) : ReadCall → Nat → Prop
  | .stat path, x => ResolveReads vol s.dev vol.rootCluster (pathComponents path) x ∨
      ∃ c name d', resolvePath vol path s.dev = .ok (c, name) d' ∧ name ≠ [] ∧
        LookupReads vol d' c name x
  | .openRead path, x => ResolveReads vol s.dev vol.rootCluster (pathComponents path) x ∨
      ∃ c name d', resolvePath vol path s.dev = .ok (c, name) d' ∧ LookupReads vol d' c name x
  | .read i len, x => ∃ file, s.files[i]? = some file ∧ ReadsCluster vol ⟨s.dev, file⟩ len x
  | .lseek _ _, _ => False
  | .opendir path, x => ResolveReads vol s.dev vol.rootCluster (pathComponents path) x
  | .readdir i, x => ∃ dir, s.dirs[i]? = some dir ∧ ReaddirReads vol s.dev dir x
  | .getlabel label, x => GetlabelReads vol s.dev label x

/-! ## Contents that stay inside -/

section Contents

variable (vol : FatVolume) (d : Disk)

/-- The driver comes from cluster `a` to cluster `b` along the table. -/
def Meets : Nat → Nat → Prop :=
  Relation.ReflTransGen fun a b => b = vol.nextOn d a ∧ b < END_MARK

/-- All clusters from `c` on are in the table. The chain need not end. -/
def Contained (c : Nat) : Prop := ∀ x, Meets vol d c x → vol.Valid x

/-- The cluster belongs to a directory that the table and the entries lead to. -/
inductive DirMet : Nat → Prop
  | root : DirMet vol.rootCluster
  | next {c : Nat} (h : DirMet c) (hmore : vol.nextOn d c < END_MARK) : DirMet (vol.nextOn d c)
  | child {c i : Nat} (h : DirMet c) (hi : i < vol.slotsPerCluster)
      (hlive : LiveEntry (entryAt (vol.clusterOn d c) i))
      (hdir : IsDirEntry (entryAt (vol.clusterOn d c) i))
      (hstart : 2 ≤ startOf (entryAt (vol.clusterOn d c) i)) :
      DirMet (startOf (entryAt (vol.clusterOn d c) i))

/-- The directories, and the chains of their entries, have clusters in the table. -/
structure Tidy : Prop where
  dirs : ∀ c, DirMet vol d c → vol.Valid c
  files : ∀ c i, DirMet vol d c → i < vol.slotsPerCluster →
    LiveEntry (entryAt (vol.clusterOn d c) i) →
    startOf (entryAt (vol.clusterOn d c) i) < 2 ∨
      Contained vol d (startOf (entryAt (vol.clusterOn d c) i))

/-- The components in front of the last one, as far as they are found, are directories. -/
def DirsOnly : Nat → List Bytes → Prop
  | _, [] => True
  | _, [_] => True
  | c, component :: rest =>
      if component = [] then DirsOnly c rest
      else ∀ p d', vol.findEntryInDir c component d = .ok (some p) d' →
        IsDirEntry (entryAt (vol.clusterOn d p.1) p.2) ∧
          DirsOnly (startOf (entryAt (vol.clusterOn d p.1) p.2)) rest

end Contents

/-- The parents in a path are directories; `f_read` has nothing to read or a cluster; `f_lseek` does
not follow the table from a handle without a cluster; and `f_readdir` is at the end or has a
cluster. -/
def Guarded (vol : FatVolume) (s : Reader) : ReadCall → Prop
  | .stat path => DirsOnly vol s.dev vol.rootCluster (pathComponents path)
  | .openRead path => DirsOnly vol s.dev vol.rootCluster (pathComponents path)
  | .read i len => ∀ file, s.files[i]? = some file →
      file.flags &&& FA_READ = 0 ∨ file.toRead len = 0 ∨ 2 ≤ file.currentCluster
  | .lseek i offset => ∀ file, s.files[i]? = some file →
      (file.size < offset ∧ file.flags &&& FA_WRITE = 0) ∨ 2 ≤ file.startCluster ∨
        offset < vol.clusterSize
  | .opendir path => DirsOnly vol s.dev vol.rootCluster (pathComponents path)
  | .readdir i => ∀ dir, s.dirs[i]? = some dir → dir.ended = true ∨ 2 ≤ dir.currentCluster
  | .getlabel _ => True

/-- The states that guarded calls reach on a device. -/
abbrev GuardedReach (vol : FatVolume) (d : Disk) : Reader → Prop :=
  Reach (fun s => s = ⟨d, [], []⟩) (Guarded vol) fun s call s' => runReadCall vol s call = some s'

/-! ## Lookups -/

section Walks

variable {target : Bytes}

theorem Contained.valid (h : Contained vol d c) : vol.Valid c := h c .refl

theorem Contained.next (h : Contained vol d c) (hmore : vol.nextOn d c < END_MARK) :
    Contained vol d (vol.nextOn d c) :=
  fun x hx => h x (Relation.ReflTransGen.head ⟨rfl, hmore⟩ hx)

/-- No cluster, or one of a directory. -/
def AtDir (vol : FatVolume) (d : Disk) (c : Nat) : Prop := c < 2 ∨ DirMet vol d c

/-- No cluster, or one whose chain stays in the table. -/
def AtFile (vol : FatVolume) (d : Disk) (c : Nat) : Prop := c < 2 ∨ Contained vol d c

/-- A slot that a lookup found. -/
structure Hit (vol : FatVolume) (d : Disk) (p : Slot) : Prop where
  dir : DirMet vol d p.1
  lt : p.2 < vol.slotsPerCluster
  live : LiveEntry (entryAt (vol.clusterOn d p.1) p.2)

/-- One round of `find_entry_in_dir` from a cluster of a directory. The walk stops at 0, at 1 and at
an end mark. -/
theorem findEntryStep_met (h : AtDir vol d c ∨ END_MARK ≤ c) : (vol.findEntryStep target c d).Sat
      (fun r d' => d' = d ∧ match r with
        | .next a => AtDir vol d a ∨ END_MARK ≤ a
        | .done r => ∀ p, r = some p → Hit vol d p) (fun _ d' => d' = d) := by
  rw [findEntryStep]
  split
  next hin =>
    have hdir : DirMet vol d c := by
      rcases h with (h | h) | h
      · omega
      · exact h
      · omega
    apply sat_bind_ok readCluster_run
    cases hscan : scanSlots (vol.clusterOn d c) target 0 vol.slotsPerCluster with
    | found idx =>
      obtain ⟨hlt, hlive⟩ := scanSlots_found hscan
      refine sat_pure ⟨rfl, ?_⟩
      rintro p ⟨⟩
      exact ⟨hdir, by omega, hlive⟩
    | stopped => exact sat_pure ⟨rfl, fun p hp => by cases hp⟩
    | panic => trivial
    | exhausted =>
      apply sat_bind_ok readFatEntry_run
      refine sat_pure ⟨rfl, ?_⟩
      by_cases hmore : vol.nextOn d c < END_MARK
      · exact .inl (.inr (hdir.next hmore))
      · exact .inr (Nat.not_lt.mp hmore)
  next => exact sat_pure ⟨rfl, fun p hp => by cases hp⟩

/-- **The lookup stays in the directory**, and what it finds is one of its live slots. -/
theorem findEntryInDir_met (h : AtDir vol d c) : (vol.findEntryInDir c target d).Sat
      (fun r d' => d' = d ∧ ∀ p, r = some p → Hit vol d p) (fun _ d' => d' = d) := by
  refine sat_loopM (I := fun a d' => d' = d ∧ (AtDir vol d a ∨ END_MARK ≤ a)) ?_ ⟨rfl, .inl h⟩
  rintro a d' ⟨rfl, ha⟩
  refine (findEntryStep_met ha).mono ?_ fun _ _ h => h
  intro r d' h
  cases r <;> exact h

theorem lookupReads_met (h : AtDir vol d c) (hx : LookupReads vol d c target x) :
    DirMet vol d x := by
  rcases hx with ⟨d', hrounds, hlow, hhigh⟩ | ⟨p, d', hrun, rfl⟩
  · have hat : d' = d ∧ (AtDir vol d x ∨ END_MARK ≤ x) := by
      refine hrounds.invariant (I := fun a d' => d' = d ∧ (AtDir vol d a ∨ END_MARK ≤ a))
        ⟨rfl, .inl h⟩ ?_
      rintro a₁ d₁ a₂ d₂ ⟨rfl, ha⟩ hnext
      exact (findEntryStep_met ha).of_ok hnext
    rcases hat.2 with (hx | hx) | hx
    · omega
    · exact hx
    · omega
  · exact (((findEntryInDir_met h).of_ok hrun).2 p rfl).dir

/-- The start cluster of a directory that a lookup found. -/
theorem Hit.atDir {p : Slot} (h : Hit vol d p)
    (hdir : IsDirEntry (entryAt (vol.clusterOn d p.1) p.2)) :
    AtDir vol d (startOf (entryAt (vol.clusterOn d p.1) p.2)) := by
  by_cases hstart : startOf (entryAt (vol.clusterOn d p.1) p.2) < 2
  · exact .inl hstart
  · exact .inr (h.dir.child h.lt h.live hdir (Nat.not_lt.mp hstart))

/-- The walk along a path reads clusters of directories and ends at one. -/
theorem resolveFrom_met {components : List Bytes} (h : AtDir vol d c)
    (hdirs : DirsOnly vol d c components) :
    (∀ x, ResolveReads vol d c components x → DirMet vol d x) ∧ (resolveFrom vol c components d).Sat
        (fun r d' => d' = d ∧ AtDir vol d r.1) (fun _ d' => d' = d) := by
  induction components generalizing c with
  | nil => exact ⟨fun x hx => hx.elim, sat_pure ⟨rfl, h⟩⟩
  | cons component rest ih =>
    cases rest with
    | nil => exact ⟨fun x hx => hx.elim, sat_pure ⟨rfl, h⟩⟩
    | cons component' rest =>
      simp only [DirsOnly] at hdirs
      simp only [ResolveReads, resolveFrom]
      by_cases hempty : component = []
      · simp only [if_pos hempty] at hdirs ⊢
        exact ih h hdirs
      simp only [if_neg hempty] at hdirs ⊢
      constructor
      · rintro x (hx | ⟨p, d', hrun, hx⟩)
        · exact lookupReads_met h hx
        · have hhit := ((findEntryInDir_met h).of_ok hrun).2 p rfl
          obtain ⟨hdir, hrest⟩ := hdirs p d' hrun
          exact (ih (hhit.atDir hdir) hrest).1 x hx
      · refine (findEntryInDir_readOnly vol c component).sat_bind (fun r hrun => ?_) fun _ => rfl
        cases r with
        | none => exact sat_throw rfl
        | some p =>
          have hhit := ((findEntryInDir_met h).of_ok hrun).2 p rfl
          obtain ⟨hdir, hrest⟩ := hdirs p d hrun
          exact sat_bind_ok readEntryData_run (ih (hhit.atDir hdir) hrest).2

theorem resolvePath_met
    (hdirs : DirsOnly vol d vol.rootCluster (pathComponents path)) : (resolvePath vol path d).Sat
      (fun r d' => d' = d ∧ AtDir vol d r.1) (fun _ d' => d' = d) := by
  rw [resolvePath]
  split
  · exact sat_pure ⟨rfl, .inr .root⟩
  · exact (resolveFrom_met (.inr .root) hdirs).2

end Walks

/-! ## The calls -/

/-- What is kept on the device `d`: the chains of the files and the places in directories. -/
structure KeptInside (vol : FatVolume) (d : Disk) (s : Reader) : Prop where
  dev : s.dev = d
  starts : ∀ f ∈ s.files, AtFile vol d f.startCluster
  currents : ∀ f ∈ s.files, AtFile vol d f.currentCluster
  dirs : ∀ dir ∈ s.dirs, AtDir vol d dir.currentCluster

section Calls

variable {s : OpenFile Disk}

/-! ### Files -/

/-- The end of a round of `f_read` goes on along the chain, or leaves the handle without a cluster.
-/
theorem readAdvance_contained (acc : Bytes) (hdev : s.dev = d)
    (hcur : Contained vol d s.file.currentCluster) : (readAdvance (some vol) acc s).Sat
      (fun r t => t.dev = d ∧ t.file.startCluster = s.file.startCluster ∧ match r with
        | .next _ => Contained vol d t.file.currentCluster
        | .done _ => AtFile vol d t.file.currentCluster) (fun _ _ => False) := by
  subst hdev
  rw [readAdvance, advanceWith]
  apply sat_bind_ok (getFile_run s)
  split
  · apply sat_bind_ok (updateFile_run _ _)
    apply sat_bind_ok (onVol_pure _ _)
    split
    · apply sat_bind_ok (updateFile_run _ _)
      apply sat_bind_ok (onVol_ok readFatEntry_run)
      split
      next => exact sat_bind_ok (updateFile_run _ _) (sat_pure ⟨rfl, rfl, .inl (by norm_num)⟩)
      next hmore =>
        exact sat_bind_ok (updateFile_run _ _)
          (sat_pure ⟨rfl, rfl, hcur.next (Nat.not_le.mp hmore)⟩)
    · exact sat_pure ⟨rfl, rfl, hcur⟩
  · exact sat_pure ⟨rfl, rfl, hcur⟩

theorem readStep_contained (toRead : Nat) (acc : Bytes) (hdev : s.dev = d)
    (hcur : Contained vol d s.file.currentCluster) : (readStep (some vol) toRead acc s).Sat
      (fun r t => t.dev = d ∧ t.file.startCluster = s.file.startCluster ∧ match r with
        | .next _ => Contained vol d t.file.currentCluster
        | .done _ => AtFile vol d t.file.currentCluster) (fun _ _ => False) := by
  rw [readStep]
  split
  · apply sat_bind_ok (getFile_run s)
    apply sat_bind_ok (onVol_ok (readSector_disk _ _))
    apply sat_bind_ok (updateFile_run _ _)
    exact readAdvance_contained (s := { s with file := s.file.advance _ }) _ hdev hcur
  · exact sat_pure ⟨hdev, rfl, .inr hcur⟩

/-- `f_read` has nothing to do with clusters, or a contained one. -/
def Readable (vol : FatVolume) (d : Disk) (file : File) (len : Nat) : Prop :=
  file.flags &&& FA_READ = 0 ∨ file.toRead len = 0 ∨ Contained vol d file.currentCluster

theorem reads_contained (hdev : s.dev = d) (h : Readable vol d s.file len)
    (hx : ReadsCluster vol s len x) : vol.Valid x := by
  obtain ⟨hflags, acc, t, hrounds, hmore, rfl⟩ := hx
  rcases h with h | h | h
  · exact absurd h hflags
  · omega
  · have hat : t.dev = d ∧ Contained vol d t.file.currentCluster := by
      refine hrounds.invariant
        (I := fun _ t => t.dev = d ∧ Contained vol d t.file.currentCluster) ⟨hdev, h⟩ ?_
      rintro acc₁ t₁ acc₂ t₂ ⟨hdev₁, hcur₁⟩ hnext
      obtain ⟨hdev₂, -, hcur₂⟩ := (readStep_contained _ acc₁ hdev₁ hcur₁).of_ok hnext
      exact ⟨hdev₂, hcur₂⟩
    exact hat.2.valid

/-- The handle has the same start, and its place is inside. -/
def StillInside (vol : FatVolume) (d : Disk) (s t : OpenFile Disk) : Prop :=
  t.dev = d ∧ t.file.startCluster = s.file.startCluster ∧ AtFile vol d t.file.currentCluster

theorem fRead_contained (hdev : s.dev = d) (hcur : AtFile vol d s.file.currentCluster)
    (h : Readable vol d s.file len) :
    (fRead (some vol) len s).Sat (fun _ => StillInside vol d s) fun _ => StillInside vol d s := by
  rw [fRead]
  apply sat_bind_ok (getFile_run s)
  split
  next => exact sat_deny ⟨hdev, rfl, hcur⟩
  next hflags =>
    simp only
    split
    next => exact sat_pure ⟨hdev, rfl, hcur⟩
    next hmore =>
      have hcont := (h.resolve_left hflags).resolve_left hmore
      apply sat_bind_ok (onVol_pure _ _)
      refine sat_loopM (I := fun _ t => t.dev = d ∧ t.file.startCluster = s.file.startCluster ∧
        Contained vol d t.file.currentCluster) ?_ ⟨hdev, rfl, hcont⟩
      rintro acc t ⟨hdev₁, hstart₁, hcur₁⟩
      refine (readStep_contained _ acc hdev₁ hcur₁).mono ?_ fun _ _ h => h.elim
      rintro r t' ⟨hdev₂, hstart₂, hcur₂⟩
      cases r with
      | next acc' => exact ⟨hdev₂, hstart₂.trans hstart₁, hcur₂⟩
      | done bytes => exact ⟨hdev₂, hstart₂.trans hstart₁, hcur₂⟩

theorem seekChain_contained (n : Nat) (h : n = 0 ∨ Contained vol d c)
    (hc : AtFile vol d c) : (seekChain vol c n d).Sat
      (fun r d' => d' = d ∧ ∀ c', r = some c' → AtFile vol d c') (fun _ _ => False) := by
  induction n generalizing c with
  | zero =>
    refine sat_pure ⟨rfl, ?_⟩
    rintro c' ⟨⟩
    exact hc
  | succ n ih =>
    have hcont := h.resolve_left n.succ_ne_zero
    rw [seekChain]
    apply sat_bind_ok readFatEntry_run
    split
    next => exact sat_pure ⟨rfl, fun c' hc' => by cases hc'⟩
    next hmore =>
      have hnext := hcont.next (Nat.not_le.mp hmore)
      exact ih (.inr hnext) (.inr hnext)

theorem fLseek_contained {offset : Nat} (hdev : s.dev = d)
    (hstart : AtFile vol d s.file.startCluster) (hcur : AtFile vol d s.file.currentCluster)
    (h : (s.file.size < offset ∧ s.file.flags &&& FA_WRITE = 0) ∨ 2 ≤ s.file.startCluster ∨
      offset < vol.clusterSize) :
    (fLseek (some vol) offset s).Sat
      (fun _ => StillInside vol d s) fun _ => StillInside vol d s := by
  subst hdev
  rw [fLseek]
  apply sat_bind_ok (getFile_run s)
  split
  next => exact sat_deny ⟨rfl, rfl, hcur⟩
  next hallowed =>
    split
    next => exact sat_pure ⟨rfl, rfl, hcur⟩
    next =>
      -- from a file without a cluster the table is not followed
      have hwalk : offset / vol.clusterSize = 0 ∨ Contained vol s.dev s.file.startCluster := by
        rcases h.resolve_left hallowed with hpos | hsmall
        · exact .inr (hstart.resolve_left (Nat.not_lt.mpr hpos))
        · exact .inl (Nat.div_eq_of_lt hsmall)
      apply sat_bind_ok (onVol_pure _ _)
      apply sat_bind
      apply sat_onVol
      refine (seekChain_contained _ hwalk hstart).mono ?_ fun _ _ h => h.elim
      rintro r d' ⟨rfl, hr⟩
      cases r with
      | none => exact ⟨rfl, rfl, .inl (by norm_num)⟩
      | some c => exact ⟨rfl, rfl, hr c rfl⟩

/-- `f_open` for reading takes the start cluster of the entry found. -/
theorem fOpen_contained (ht : Tidy vol d)
    (hdirs : DirsOnly vol d vol.rootCluster (pathComponents path)) :
    (fOpen (some vol) path FA_READ d).Sat
      (fun f d' => d' = d ∧ AtFile vol d f.startCluster ∧ AtFile vol d f.currentCluster)
      (fun _ d' => d' = d) := by
  show (openVol vol path FA_READ d).Sat _ _
  rw [openVol]
  refine (resolvePath_readOnly vol path).sat_bind (fun r hr => ?_) fun _ => rfl
  have hat := ((resolvePath_met hdirs).of_ok hr).2
  refine (findEntryInDir_readOnly vol _ _).sat_bind (fun p hp => ?_) fun _ => rfl
  cases p with
  | none => exact sat_throw rfl
  | some p =>
    have hhit := ((findEntryInDir_met hat).of_ok hp).2 p rfl
    have hstart := ht.files p.1 p.2 hhit.dir hhit.lt hhit.live
    exact sat_bind_ok readEntryData_run (sat_pure ⟨rfl, hstart, hstart⟩)

theorem fStat_readOnly (vol : FatVolume) (path : Bytes) :
    (fStat (some vol) path : DevOp Disk _).ReadOnly := by
  refine (resolvePath_readOnly vol path).bind fun r => ?_
  simp only
  split
  · exact Op.readOnly_pure _
  · refine (findEntryInDir_readOnly vol _ _).bind fun p => ?_
    cases p with
    | none => exact Op.readOnly_throw _
    | some p => exact (readEntryData_readOnly vol _ _).bind fun _ => Op.readOnly_pure _

/-! ### Directories -/

theorem fOpendir_met (hdirs : DirsOnly vol d vol.rootCluster (pathComponents path)) :
    (fOpendir (some vol) path d).Sat
      (fun dir d' => d' = d ∧ AtDir vol d dir.currentCluster) (fun _ d' => d' = d) := by
  apply sat_bind
  refine (resolvePath_met hdirs).mono ?_ fun _ _ h => h
  rintro r d' ⟨rfl, hr⟩
  exact sat_pure ⟨rfl, hr⟩

/-- `f_readdir` goes from a cluster of a directory to the next one. -/
theorem nextDirCluster_met {s : OpenDir Disk} (hdev : s.dev = d)
    (hcur : DirMet vol d s.dir.currentCluster) : (nextDirCluster vol s).Sat
      (fun _ t => t.dev = d ∧ DirMet vol d t.dir.currentCluster) (fun _ _ => False) := by
  subst hdev
  rw [nextDirCluster]
  apply sat_bind_ok (getDir_run s)
  split
  · apply sat_bind_ok (updateDir_run _ _)
    apply sat_bind_ok (onDev_ok readFatEntry_run _)
    split
    next => exact sat_bind_ok (updateDir_run _ _) (sat_pure ⟨rfl, hcur⟩)
    next hmore =>
      exact sat_bind_ok (updateDir_run _ _) (sat_pure ⟨rfl, hcur.next (Nat.not_le.mp hmore)⟩)
  · exact sat_pure ⟨rfl, hcur⟩

/-- The handle is at its end, or at a cluster of a directory. -/
def Listable (vol : FatVolume) (d : Disk) (s : OpenDir Disk) : Prop :=
  s.dev = d ∧ AtDir vol d s.dir.currentCluster ∧
    (s.dir.ended = true ∨ DirMet vol d s.dir.currentCluster)

theorem Listable.of_met {s : OpenDir Disk} (hdev : s.dev = d)
    (hcur : DirMet vol d s.dir.currentCluster) : Listable vol d s :=
  ⟨hdev, .inr hcur, .inr hcur⟩

theorem readdirEntry_met {s : OpenDir Disk} (dir : Dir) (e : Entry) (hdev : s.dev = d)
    (hcur : DirMet vol d s.dir.currentCluster) :
    (readdirEntry dir e s).Leaves (Listable vol d) := by
  rw [readdirEntry]
  split
  · exact sat_bind_ok (updateDir_run _ _) (sat_pure (.of_met hdev hcur))
  split
  · exact sat_pure (.of_met hdev hcur)
  cases readDirEntryName e with
  | none => exact sat_pure (.of_met hdev hcur)
  | some name =>
    simp only
    cases matchPattern name dir.pattern dir.patLen with
    | none => trivial
    | some hit =>
      cases hit with
      | true => exact sat_pure (.of_met hdev hcur)
      | false => exact sat_pure (.of_met hdev hcur)

theorem readdirStep_met {s : OpenDir Disk} (h : Listable vol d s) :
    (readdirStep vol () s).Leaves (Listable vol d) := by
  rw [readdirStep]
  apply sat_bind_ok (getDir_run s)
  split
  next => exact sat_pure h
  next hended =>
    have hcur := h.2.2.resolve_left hended
    apply sat_bind
    refine (nextDirCluster_met h.1 hcur).mono ?_ fun _ _ h => h.elim
    rintro more t ⟨hdev, hcur⟩
    cases more with
    | false => exact sat_pure (.of_met hdev hcur)
    | true =>
      apply sat_bind_ok (getDir_run t)
      apply sat_bind_ok (onDev_ok readCluster_run _)
      apply sat_bind_ok (updateDir_run _ _)
      exact readdirEntry_met _ _ hdev hcur

theorem fReaddir_met {s : OpenDir Disk} (h : Listable vol d s) :
    (fReaddir (some vol) s).Leaves (Listable vol d) := by
  refine sat_loopM (I := fun _ t => Listable vol d t) ?_ h
  rintro - t ht
  refine (readdirStep_met ht).mono ?_ fun _ _ h => h
  intro r t ht
  cases r <;> exact ht

theorem readdirReads_met (h : Listable vol d ⟨d, dir⟩)
    (hx : ReaddirReads vol d dir x) : DirMet vol d x := by
  obtain ⟨t, t', hrounds, hgoes, hnext, rfl⟩ := hx
  have ht : Listable vol d t := by
    refine hrounds.invariant (I := fun _ t => Listable vol d t) h ?_
    intro _ t₁ _ t₂ ht₁ hround
    exact (readdirStep_met ht₁).of_ok hround
  have hcur := ht.2.2.resolve_left (by rw [hgoes]; exact Bool.false_ne_true)
  exact ((nextDirCluster_met ht.1 hcur).of_ok hnext).2

theorem getlabelStep_met (h : DirMet vol d c) : (getlabelStep vol label c d).Sat
      (fun r d' => d' = d ∧ match r with
        | .next a => DirMet vol d a
        | .done _ => True) (fun _ d' => d' = d) := by
  rw [getlabelStep]
  apply sat_bind_ok readCluster_run
  cases scanLabel (vol.clusterOn d c) 0 vol.slotsPerCluster with
  | stopped => exact sat_pure ⟨rfl, trivial⟩
  | found l => exact sat_pure ⟨rfl, trivial⟩
  | exhausted =>
    apply sat_bind_ok readFatEntry_run
    split
    next => exact sat_pure ⟨rfl, trivial⟩
    next hmore => exact sat_pure ⟨rfl, h.next (Nat.not_le.mp hmore)⟩

theorem getlabelReads_met (hx : GetlabelReads vol d label x) : DirMet vol d x := by
  obtain ⟨d', hrounds⟩ := hx
  have hat : d' = d ∧ DirMet vol d x := by
    refine hrounds.invariant (I := fun a d' => d' = d ∧ DirMet vol d a) ⟨rfl, .root⟩ ?_
    rintro a₁ d₁ a₂ d₂ ⟨rfl, ha⟩ hnext
    exact (getlabelStep_met ha).of_ok hnext
  exact hat.2

theorem fGetlabel_readOnly (vol : FatVolume) (label : Bytes) :
    (fGetlabel (some vol) label : DevOp Disk _).ReadOnly := by
  refine Op.readOnly_loopM (fun c => ?_) _ _
  refine (readCluster_readOnly vol c).bind fun buf => ?_
  cases scanLabel buf 0 vol.slotsPerCluster with
  | stopped => exact Op.readOnly_pure _
  | found l => exact Op.readOnly_pure _
  | exhausted =>
    refine (readFatEntry_readOnly vol c).bind fun next => ?_
    split <;> exact Op.readOnly_pure _

end Calls

/-! ## Runs -/

section Runs

variable {d' : Disk} {s s' : Reader} {call : ReadCall} {f : File}

section

variable (h : KeptInside vol d s)
include h

/-- A call on an open file changes this handle only. -/
theorem KeptInside.setFile (i : Nat) (hdev : d' = d) (hstart : AtFile vol d f.startCluster)
    (hcur : AtFile vol d f.currentCluster) :
    KeptInside vol d { s with dev := d', files := s.files.set i f } := by
  refine ⟨hdev, fun g hg => ?_, fun g hg => ?_, h.dirs⟩
  · rcases mem_or_eq_of_mem_set hg with hg | rfl
    · exact h.starts g hg
    · exact hstart
  · rcases mem_or_eq_of_mem_set hg with hg | rfl
    · exact h.currents g hg
    · exact hcur

theorem KeptInside.setDir (i : Nat) (hdev : d' = d) (hcur : AtDir vol d dir.currentCluster) :
    KeptInside vol d { s with dev := d', dirs := s.dirs.set i dir } := by
  refine ⟨hdev, h.starts, h.currents, fun g hg => ?_⟩
  rcases mem_or_eq_of_mem_set hg with hg | rfl
  · exact h.dirs g hg
  · exact hcur

theorem KeptInside.addFile (hdev : d' = d) (hstart : AtFile vol d f.startCluster)
    (hcur : AtFile vol d f.currentCluster) :
    KeptInside vol d { s with dev := d', files := s.files ++ [f] } := by
  refine ⟨hdev, fun g hg => ?_, fun g hg => ?_, h.dirs⟩
  · rcases mem_append.mp hg with hg | hg
    · exact h.starts g hg
    · exact mem_singleton.mp hg ▸ hstart
  · rcases mem_append.mp hg with hg | hg
    · exact h.currents g hg
    · exact mem_singleton.mp hg ▸ hcur

theorem KeptInside.addDir (hdev : d' = d) (hcur : AtDir vol d dir.currentCluster) :
    KeptInside vol d { s with dev := d', dirs := s.dirs ++ [dir] } := by
  refine ⟨hdev, h.starts, h.currents, fun g hg => ?_⟩
  rcases mem_append.mp hg with hg | hg
  · exact h.dirs g hg
  · exact mem_singleton.mp hg ▸ hcur

theorem KeptInside.setDev (hdev : d' = d) : KeptInside vol d { s with dev := d' } :=
  ⟨hdev, h.starts, h.currents, h.dirs⟩

/-- The guard of `f_read`, for a handle that is kept inside. -/
theorem KeptInside.readable {file : File} (hfile : s.files[i]? = some file)
    (hok : Guarded vol s (.read i len)) :
    Readable vol d file len := by
  refine (hok file hfile).imp_right fun hok => hok.imp_right fun hlow => ?_
  exact (h.currents file (mem_of_getElem? hfile)).resolve_left (Nat.not_lt.mpr hlow)

/-- The guard of `f_readdir`. -/
theorem KeptInside.listable (hdir : s.dirs[i]? = some dir)
    (hok : Guarded vol s (.readdir i)) : Listable vol d ⟨d, dir⟩ := by
  have hat := h.dirs dir (mem_of_getElem? hdir)
  refine ⟨rfl, hat, (hok dir hdir).imp_right fun hlow => ?_⟩
  exact hat.resolve_left (Nat.not_lt.mpr hlow)

end

/-- **One guarded call** keeps all handles inside. -/
theorem KeptInside.step (ht : Tidy vol d) (h : KeptInside vol d s) (hok : Guarded vol s call)
    (hrun : runReadCall vol s call = some s') : KeptInside vol d s' := by
  obtain rfl := h.dev
  cases call with
  | stat path =>
    obtain ⟨d', hafter, rfl⟩ := Option.map_eq_some_iff.mp hrun
    exact h.setDev (after_of_sat (P := (· = s.dev)) (fStat_readOnly vol path s.dev) hafter)
  | openRead path =>
    have hopen := fOpen_contained ht hok
    rw [runReadCall] at hrun
    cases hcall : fOpen (some vol) path FA_READ s.dev with
    | ok file d' =>
      rw [hcall] at hrun
      obtain rfl := Option.some.inj hrun
      obtain ⟨hdev, hstart, hcur⟩ := hopen.of_ok hcall
      exact h.addFile hdev hstart hcur
    | err e d' =>
      rw [hcall] at hrun
      obtain rfl := Option.some.inj hrun
      exact h.setDev (hopen.of_err hcall)
    | fault w =>
      rw [hcall] at hrun
      cases hrun
  | read i len =>
    obtain ⟨file, hfile, hrun⟩ := Option.bind_eq_some_iff.mp hrun
    obtain ⟨t, hafter, rfl⟩ := Option.map_eq_some_iff.mp hrun
    have hmem := mem_of_getElem? hfile
    obtain ⟨hdev, hstart, hcur⟩ := after_of_sat
      (fRead_contained (s := ⟨s.dev, file⟩) rfl (h.currents file hmem)
        (h.readable hfile hok)) hafter
    exact h.setFile i hdev (hstart ▸ h.starts file hmem) hcur
  | lseek i offset =>
    obtain ⟨file, hfile, hrun⟩ := Option.bind_eq_some_iff.mp hrun
    obtain ⟨t, hafter, rfl⟩ := Option.map_eq_some_iff.mp hrun
    have hmem := mem_of_getElem? hfile
    obtain ⟨hdev, hstart, hcur⟩ := after_of_sat
      (fLseek_contained (s := ⟨s.dev, file⟩) rfl (h.starts file hmem) (h.currents file hmem)
        (hok file hfile)) hafter
    exact h.setFile i hdev (hstart ▸ h.starts file hmem) hcur
  | opendir path =>
    have hopen := fOpendir_met hok
    rw [runReadCall] at hrun
    cases hcall : fOpendir (some vol) path s.dev with
    | ok dir d' =>
      rw [hcall] at hrun
      obtain rfl := Option.some.inj hrun
      obtain ⟨hdev, hcur⟩ := hopen.of_ok hcall
      exact h.addDir hdev hcur
    | err e d' =>
      rw [hcall] at hrun
      obtain rfl := Option.some.inj hrun
      exact h.setDev (hopen.of_err hcall)
    | fault w =>
      rw [hcall] at hrun
      cases hrun
  | readdir i =>
    obtain ⟨dir, hdir, hrun⟩ := Option.bind_eq_some_iff.mp hrun
    obtain ⟨t, hafter, rfl⟩ := Option.map_eq_some_iff.mp hrun
    obtain ⟨hdev, hcur, -⟩ := after_of_sat (fReaddir_met (h.listable hdir hok)) hafter
    exact h.setDir i hdev hcur
  | getlabel label =>
    obtain ⟨d', hafter, rfl⟩ := Option.map_eq_some_iff.mp hrun
    exact h.setDev (after_of_sat (P := (· = s.dev)) (fGetlabel_readOnly vol label s.dev) hafter)

/-- What a guarded call addresses, when all handles are inside. -/
theorem KeptInside.addresses (ht : Tidy vol d) (h : KeptInside vol d s) (hok : Guarded vol s call)
    (hx : Addresses vol s call x) : vol.Valid x := by
  obtain rfl := h.dev
  -- the last component of a path
  have hlast : ∀ {path c name d'}, DirsOnly vol s.dev vol.rootCluster (pathComponents path) →
      resolvePath vol path s.dev = .ok (c, name) d' →
      LookupReads vol d' c name x → vol.Valid x := by
    intro path c name d' hdirs hrun hlook
    obtain ⟨rfl, hat⟩ := (resolvePath_met hdirs).of_ok hrun
    exact ht.dirs x (lookupReads_met hat hlook)
  cases call with
  | stat path =>
    rcases hx with hx | ⟨c, name, d', hrun, -, hlook⟩
    · exact ht.dirs x ((resolveFrom_met (.inr .root) hok).1 x hx)
    · exact hlast hok hrun hlook
  | openRead path =>
    rcases hx with hx | ⟨c, name, d', hrun, hlook⟩
    · exact ht.dirs x ((resolveFrom_met (.inr .root) hok).1 x hx)
    · exact hlast hok hrun hlook
  | read i len =>
    obtain ⟨file, hfile, hreads⟩ := hx
    exact reads_contained (s := ⟨s.dev, file⟩) rfl (h.readable hfile hok) hreads
  | lseek i offset => exact hx.elim
  | opendir path => exact ht.dirs x ((resolveFrom_met (.inr .root) hok).1 x hx)
  | readdir i =>
    obtain ⟨dir, hdir, hreads⟩ := hx
    exact ht.dirs x (readdirReads_met (h.listable hdir hok) hreads)
  | getlabel label => exact ht.dirs x (getlabelReads_met hx)

theorem Usable.maxCluster_eq (hg : Usable vol) : vol.maxCluster = vol.sectorsPerFat * 128 := by
  have hbytes := hg.bytes
  rw [maxCluster, Nat.mod_eq_of_lt hbytes, SECTOR_SIZE]
  omega

/-- **Reading stays in the data region.** On a tidy content, in every state that guarded calls
reach, a guarded call passes only clusters of the table to `cluster_to_lba`. -/
theorem reads_stay_in_data (hg : Usable vol) (ht : Tidy vol d) (hreach : GuardedReach vol d s)
    (hok : Guarded vol s call) (hx : Addresses vol s call x) :
    2 ≤ x ∧ x < vol.sectorsPerFat * 128 := by
  have hinside : KeptInside vol d s := by
    refine Reach.invariant ?_ (fun s call s' h hok hrun => h.step ht hok hrun) hreach
    rintro s rfl
    exact ⟨rfl, forall_mem_nil _, forall_mem_nil _, forall_mem_nil _⟩
  have hvalid := hinside.addresses ht hok hx
  exact ⟨hvalid.1, hg.maxCluster_eq ▸ hvalid.2⟩

end Runs

/-! ## Inside and outside -/

theorem sample_usable : Usable tinyVol :=
  ⟨by decide, by decide, by decide, by decide, by decide, by decide, by decide +kernel⟩

/-- All chains of the second sample volume have one cluster. -/
theorem second_tidy : Tidy tinyVol secondDisk := by
  have hend : ∀ c ∈ [2, 3, 4, 5], ¬ tinyVol.nextOn secondDisk c < END_MARK := by decide +kernel
  have hsub : ∀ c ∈ [2, 3, 4], ∀ i < tinyVol.slotsPerCluster,
      LiveEntry (entryAt (tinyVol.clusterOn secondDisk c) i) →
      startOf (entryAt (tinyVol.clusterOn secondDisk c) i) < 2 ∨
        startOf (entryAt (tinyVol.clusterOn secondDisk c) i) ∈ [3, 4, 5] ∧
          (IsDirEntry (entryAt (tinyVol.clusterOn secondDisk c) i) →
            startOf (entryAt (tinyVol.clusterOn secondDisk c) i) ≠ 5) := by
    decide +kernel
  have hdirs : ∀ c, DirMet tinyVol secondDisk c → c ∈ [2, 3, 4] := by
    intro c hc
    induction hc with
    | root => decide
    | next _ hmore ih => exact absurd hmore (hend _ (mem_append_left [5] ih))
    | @child c i _ hi hlive hdir hstart ih =>
      rcases hsub c ih i hi hlive with h | ⟨hmem, hne⟩
      · omega
      · have hne := hne hdir
        simp only [mem_cons, not_mem_nil, or_false] at hmem ⊢
        omega
  constructor
  · intro c hc
    have hvalid : ∀ c ∈ [2, 3, 4], tinyVol.Valid c := by decide
    exact hvalid c (hdirs c hc)
  · intro c i hc hi hlive
    refine (hsub c (hdirs c hc) i hi hlive).imp_right ?_
    rintro ⟨hmem, -⟩ x hx
    generalize startOf (entryAt (tinyVol.clusterOn secondDisk c) i) = a at hmem hx
    -- the walk ends at once
    have hstay : x = a := by
      induction hx with
      | refl => rfl
      | tail _ hstep ih =>
        subst ih
        exact absurd (hstep.1 ▸ hstep.2) (hend _ (mem_cons_of_mem 2 hmem))
    have hvalid : ∀ c ∈ [3, 4, 5], tinyVol.Valid c := by decide
    exact hstay ▸ hvalid a hmem

/-- The handle at the first slot of a cluster, as `f_opendir` returns it. -/
def dirAt (c : Nat) : Dir := ⟨c, c, 0, 0, false, replicate 11 0, 0⟩

/-- `f_opendir` on the second sample volume, as the first call. -/
theorem second_opendir (h : ∃ d', fOpendir (some tinyVol) path secondDisk = .ok (dirAt c) d') :
    runReadCall tinyVol ⟨secondDisk, [], []⟩ (.opendir path) =
      some ⟨secondDisk, [], [dirAt c]⟩ := by
  obtain ⟨d', hrun⟩ := h
  have hread : (fOpendir (some tinyVol) path : DevOp Disk Dir).ReadOnly :=
    (resolvePath_readOnly tinyVol path).bind fun _ => Op.readOnly_pure _
  obtain rfl : d' = secondDisk := hread.of_ok hrun
  rw [runReadCall, hrun]
  rfl

/-- The first round of `f_readdir` reads the cluster of the handle. -/
theorem addresses_dirAt (c : Nat) :
    Addresses tinyVol ⟨secondDisk, [], [dirAt c]⟩ (.readdir 0) c := by
  have hnext : nextDirCluster tinyVol ⟨secondDisk, dirAt c⟩ = .ok true ⟨secondDisk, dirAt c⟩ := by
    rw [nextDirCluster, Op.bind_ok (getDir_run _), if_neg]
    · rfl
    · exact Nat.not_le.mpr (show 0 < tinyVol.slotsPerCluster by decide)
  exact ⟨dirAt c, rfl, ⟨secondDisk, dirAt c⟩, ⟨secondDisk, dirAt c⟩, .start, rfl, hnext, rfl⟩

/-- Listing `/D/` is guarded and reads the cluster of `D`. -/
theorem reads_stay_in_data_D : GuardedReach tinyVol secondDisk ⟨secondDisk, [], [dirAt 4]⟩ ∧
    Addresses tinyVol ⟨secondDisk, [], [dirAt 4]⟩ (.readdir 0) 4 ∧
    2 ≤ 4 ∧ 4 < tinyVol.sectorsPerFat * 128 := by
  obtain ⟨d, hlookup⟩ : ∃ d, tinyVol.findEntryInDir 2 [0x44] secondDisk = .ok (some (2, 2)) d := by
    decide +kernel
  have hguard : Guarded tinyVol ⟨secondDisk, [], []⟩ (.opendir [0x2F, 0x44, 0x2F]) := by
    intro p d' hrun
    obtain rfl := Option.some.inj (Outcome.ok.inj (hlookup.symm.trans hrun)).1
    exact ⟨by decide +kernel, trivial⟩
  have hreach : GuardedReach tinyVol secondDisk ⟨secondDisk, [], [dirAt 4]⟩ :=
    .step (.init rfl) hguard (second_opendir (by decide +kernel))
  have hok : Guarded tinyVol ⟨secondDisk, [], [dirAt 4]⟩ (.readdir 0) := by
    intro dir hdir
    obtain rfl : dirAt 4 = dir := Option.some.inj hdir
    exact .inr (by decide)
  exact ⟨hreach, addresses_dirAt 4,
    reads_stay_in_data sample_usable second_tidy hreach hok (addresses_dirAt 4)⟩

/-- A root directory whose slots are all deleted; the table leads from it to the number 200. -/
def strayDisk : Disk := diskOf [0x0FFFFFF8, 0x0FFFFFFF, 200] [replicate 512 0xE5]

/-- **Reading leaves the data region.** The entry `..` of a first-level directory names cluster 0.
`f_opendir` of `/D/../` takes it over on a well-formed volume, and `f_readdir` reads it. `f_stat`
and `f_getlabel` follow a link to a number that no cluster has. -/
theorem reads_leave_data : Usable tinyVol ∧ tinyVol.sectorsPerFat * 128 ≤ 200 ∧
    WellFormed tinyVol secondImage ∧
    (∃ s, runReadCall tinyVol ⟨secondDisk, [], []⟩
        (.opendir [0x2F, 0x44, 0x2F, 0x2E, 0x2E, 0x2F]) = some s ∧
      Addresses tinyVol s (.readdir 0) 0) ∧
    Addresses tinyVol ⟨strayDisk, [], []⟩ (.stat [0x2F, 0x58]) 200 ∧
    Addresses tinyVol ⟨strayDisk, [], []⟩ (.getlabel (replicate 12 0)) 200 := by
  have hnext : tinyVol.nextOn strayDisk 2 = 200 := by decide +kernel
  have hscan : scanSlots (tinyVol.clusterOn strayDisk 2) [0x58] 0 tinyVol.slotsPerCluster =
      .exhausted := by decide +kernel
  have hlabel : scanLabel (tinyVol.clusterOn strayDisk 2) 0 tinyVol.slotsPerCluster =
      .exhausted := by decide +kernel
  refine ⟨sample_usable, by decide, second_wellFormed,
    ⟨_, second_opendir (by decide +kernel), addresses_dirAt 0⟩, .inr ?_, ?_⟩
  · refine ⟨2, [0x58], strayDisk, rfl, by decide, .inl ⟨strayDisk, ?_, by decide, by decide⟩⟩
    refine .next .start ?_
    rw [findEntryStep, if_pos (by decide), Op.bind_ok readCluster_run, hscan]
    exact hnext ▸ rfl
  · refine ⟨strayDisk, .next .start ?_⟩
    rw [getlabelStep, show tinyVol.rootCluster = 2 from rfl, Op.bind_ok readCluster_run, hlabel]
    refine (Op.bind_ok readFatEntry_run).trans ?_
    rw [hnext, if_neg (by decide)]
    rfl

end PlanckOS.Fat32
