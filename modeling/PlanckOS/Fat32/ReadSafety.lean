import PlanckOS.Fat32.Sessions
import PlanckOS.Fat32.Access

/-!
# What `f_read` may touch

`f_read` subtracts the position from the size without a test, and passes the current cluster to
`cluster_to_lba` without one. A handle is `InPlace` when it is empty and cleared, or seated: the
position is then inside of the file, and every cluster that a read visits is one of the file's chain
(`InPlace.reads_own`).

`f_open` establishes it (`settled_of_open`), and each of the five calls keeps it under a condition
on the state before (`Careful`): no seek behind the end of a writable file or to the end of its
chain, no write or growth there. Truncation and reading have no condition. `reads_in_bounds` is the
statement about runs, `read_past_end` what happens otherwise.
-/

set_option autoImplicit false

namespace PlanckOS.Fat32

open Lib.Fallible Lib.Loop List
open Lib.Transition FatVolume

variable {vol : FatVolume} {img img' : Image} {s : OpenFile Disk} {l l' : List Nat} {size : Nat}

/-! ## Handles in place -/

/-- A handle on an empty file, without a cluster. The start cluster may be the one of a chain that
`f_open` released. -/
structure Cleared (f : File) : Prop where
  size : f.size = 0
  position : f.position = 0
  current : f.currentCluster = 0
  sector : f.sectorInCluster = 0
  byte : f.byteInSector = 0

/-- The handle is cleared, or seated on a chain. -/
def InPlace (vol : FatVolume) (img : Image) (f : File) : Prop :=
  Cleared f ∨ ∃ l, Seated vol img f l

/-- The device shows a table with an end mark at 0, and the handle is in place on it. -/
def Settled (vol : FatVolume) (s : OpenFile Disk) : Prop :=
  ∃ img, Shows vol s.dev img ∧ END_MARK ≤ img.next 0 ∧ InPlace vol img s.file

/-- The number of bytes that `f_read` of `len` bytes wants to read. -/
def File.toRead (f : File) (len : Nat) : Nat := min len ((f.size + (2 ^ 32 - f.position)) % 2 ^ 32)

/-- `f_read` of `len` bytes passes the cluster `c` to `cluster_to_lba` in one of its rounds. -/
def ReadsCluster (vol : FatVolume) (s : OpenFile Disk) (len c : Nat) : Prop :=
  s.file.flags &&& FA_READ ≠ 0 ∧ ∃ acc t,
    Op.Rounds (readStep (some vol) (s.file.toRead len)) [] s acc t ∧
      acc.length < s.file.toRead len ∧ t.file.currentCluster = c

section Places

variable {f f' : File}
  {p q : Nat}

theorem Cleared.withError (h : Cleared f) (e : FError) : Cleared { f with error := e } :=
  ⟨h.size, h.position, h.current, h.sector, h.byte⟩

/-- What a seat depends on. -/
theorem Seated.congr (h : Seated vol img f l) (hstart : f'.startCluster = f.startCluster)
    (hsize : f'.size = f.size) (hposition : f'.position = f.position)
    (hcurrent : f'.currentCluster = f.currentCluster)
    (hsector : f'.sectorInCluster = f.sectorInCluster) (hbyte : f'.byteInSector = f.byteInSector) :
    Seated vol img f' l := by
  refine ⟨hstart ▸ h.chain, hsize ▸ h.covers, ?_, hsize ▸ h.small, ?_⟩
  · rw [hposition, hsize]
    exact h.inside
  · rcases h.cursor with ⟨q, hq⟩ | hend
    · refine .inl ⟨q, hcurrent ▸ hq.cluster, ?_, hsector ▸ hq.sector, hbyte ▸ hq.byte⟩
      rw [hposition, hsector, hbyte]
      exact hq.place
    · refine .inr ⟨?_, hsector.trans hend.sector, hbyte.trans hend.byte, ?_⟩
      · rw [hposition]
        exact hend.position
      · rw [hcurrent]
        exact hend.current

theorem InPlace.withError (h : InPlace vol img f) (e : FError) :
    InPlace vol img { f with error := e } :=
  h.imp (·.withError e) fun ⟨l, hl⟩ => ⟨l, hl.congr rfl rfl rfl rfl rfl rfl⟩

theorem InPlace.position_le (h : InPlace vol img f) : f.position ≤ f.size := by
  rcases h with hclear | ⟨l, hl⟩
  · rw [hclear.position]
    exact Nat.zero_le _
  · exact hl.inside

theorem InPlace.size_lt (h : InPlace vol img f) : f.size < 2 ^ 32 := by
  rcases h with hclear | ⟨l, hl⟩
  · rw [hclear.size]
    norm_num
  · exact hl.small

/-- The cursor in a chain that grew. -/
theorem Cursor.grow (h : Cursor vol l f p q) (hkeeps : l <+: l') : Cursor vol l' f p q := by
  obtain ⟨t, rfl⟩ := hkeeps
  refine ⟨?_, h.place, h.sector, h.byte⟩
  rw [getElem?_append_left (List.getElem?_eq_some_iff.mp h.cluster).1]
  exact h.cluster

/-- **Every cluster that a read visits is one of the chain.** -/
theorem InPlace.reads_own (hg : Geometry vol) (hv : view vol s.dev = img)
    (h : InPlace vol img s.file) {len c : Nat} (hc : ReadsCluster vol s len c) :
    2 ≤ c ∧ ∃ l, img.Chain vol s.file.startCluster l ∧ c ∈ l := by
  obtain ⟨-, acc, t, hrounds, hmore, rfl⟩ := hc
  have htoRead : s.file.toRead len ≤ s.file.size - s.file.position := by
    have hinside := h.position_le
    have hsmall := h.size_lt
    rw [File.toRead]
    omega
  rcases h with hclear | ⟨l, hl⟩
  · rw [hclear.size] at htoRead
    omega
  have hinside := hl.inside
  -- the rounds move along the chain and stay in front of the end of the file
  have hstep : ∀ (acc₁ : Bytes) (t₁ : OpenFile Disk) (acc₂ : Bytes) (t₂ : OpenFile Disk),
      (view vol t₁.dev = img ∧ Seated vol img t₁.file l ∧ SameText s.file t₁.file ∧
        t₁.file.position = s.file.position + acc₁.length) →
      readStep (some vol) (s.file.toRead len) acc₁ t₁ = .ok (.next acc₂) t₂ →
      view vol t₂.dev = img ∧ Seated vol img t₂.file l ∧ SameText s.file t₂.file ∧
        t₂.file.position = s.file.position + acc₂.length := by
    rintro acc₁ t₁ acc₂ t₂ ⟨hv₁, hl₁, hsame₁, hpos₁⟩ hnext
    by_cases hmore₁ : acc₁.length < s.file.toRead len
    · have hin : t₁.file.position + (s.file.toRead len - acc₁.length) ≤ t₁.file.size := by
        rw [hpos₁, hsame₁.size]
        omega
      obtain ⟨hdev, hl₂, hsame₂, m, -, -, hpos₂, hr⟩ :=
        (hl₁.readStep hg hv₁ hmore₁ hin).sat.of_ok hnext
      refine ⟨hdev ▸ hv₁, hl₂, hsame₁.trans hsame₂, ?_⟩
      rcases hr with hr | ⟨hr, -⟩
      · rw [Flow.next.inj hr, length_append, fileBytes_length]
        omega
      · cases hr
    · rw [readStep, if_neg hmore₁] at hnext
      cases hnext
  obtain ⟨-, ht, hsame, hpos⟩ := hrounds.invariant ⟨hv, hl, .refl _, rfl⟩ hstep
  have hcovers := ht.covers
  have hsize := hsame.size
  obtain ⟨q, hq⟩ := ht.cursor_of_lt (by omega)
  exact ⟨(ht.chain.valid_of_mem hq.mem).1, l, hl.chain, hq.mem⟩

end Places

/-! ## The calls -/

/-- The position `pos` is in front of the end of the file's chain. -/
def InChain (vol : FatVolume) (s : OpenFile Disk) (pos : Nat) : Prop :=
  ∃ l, (view vol s.dev).Chain vol s.file.startCluster l ∧ pos < l.length * vol.clusterSize

/-- A call that leaves the handle in place. Every call that the flags of the handle deny does. -/
def Careful (vol : FatVolume) (s : OpenFile Disk) : Call → Prop
  | .read _ => True
  | .write buf => s.file.flags &&& FA_WRITE = 0 ∨ buf = [] ∨
      (s.file.position + buf.length < 2 ^ 32 ∧ (s.file.size = 0 ∨ InChain vol s s.file.position))
  | .lseek offset => (s.file.size < offset ∧ s.file.flags &&& FA_WRITE = 0) ∨
      offset = s.file.position ∨ (offset ≤ s.file.size ∧ InChain vol s offset)
  | .truncate => True
  | .expand size => s.file.flags &&& FA_WRITE = 0 ∨ size ≤ s.file.size ∨
      (s.file.startCluster = 0 ∧ size + vol.clusterSize ≤ 2 ^ 32) ∨
      (size < 2 ^ 32 ∧ s.file.currentCluster ≠ 0 ∧ InChain vol s s.file.position)

section Calls

variable {s' : OpenFile Disk}

theorem InChain.lt {pos : Nat} (hg : Geometry vol) (hv : view vol s.dev = img)
    (hl : img.Chain vol s.file.startCluster l) (h : InChain vol s pos) :
    pos < l.length * vol.clusterSize := by
  obtain ⟨m, hm, hlt⟩ := h
  rw [hv] at hm
  exact hm.unique hg.not_stop hl ▸ hlt

/-- A denied call. -/
theorem settled_deny {α : Type} (hs : Shows vol s.dev img) (hend : END_MARK ≤ img.next 0)
    (h : InPlace vol img s.file) : ((deny : FileOp Disk α) s).Leaves (Settled vol) :=
  sat_deny ⟨img, hs, hend, h.withError _⟩

variable (hg : Geometry vol) (hs : Shows vol s.dev img) (hend : END_MARK ≤ img.next 0)
  {buf : Bytes}
include hg hs hend

theorem fRead_settled (h : InPlace vol img s.file) (len : Nat) :
    (fRead (some vol) len s).Leaves (Settled vol) := by
  by_cases hread : s.file.flags &&& FA_READ = 0
  · rw [fRead]
    apply sat_bind_ok (getFile_run s)
    rw [if_pos hread]
    exact settled_deny hs hend h
  rcases h with hclear | ⟨l, hl⟩
  · have hnone : fRead (some vol) len s = .ok [] s := by
      rw [fRead, Op.bind_ok (getFile_run s), if_neg hread, hclear.size, hclear.position,
        if_pos (by omega)]
      rfl
    exact sat_of_ok hnone ⟨img, hs, hend, .inl hclear⟩
  · refine (fRead_seated hg hs.view_eq hl hread len).sat.mono ?_ fun _ _ h => h.elim
    rintro bytes t ⟨hdev, ht, -, -, -⟩
    exact ⟨img, hdev ▸ hs, hend, .inr ⟨l, ht⟩⟩

theorem fLseek_settled (h : InPlace vol img s.file) {offset : Nat}
    (hcareful : Careful vol s (.lseek offset)) :
    (fLseek (some vol) offset s).Leaves (Settled vol) := by
  by_cases hdenied : s.file.size < offset ∧ s.file.flags &&& FA_WRITE = 0
  · rw [fLseek]
    apply sat_bind_ok (getFile_run s)
    rw [if_pos hdenied]
    exact settled_deny hs hend h
  by_cases hsame : offset = s.file.position
  · exact sat_of_ok (fLseek_same hdenied hsame) ⟨img, hs, hend, h⟩
  obtain ⟨hle, hin⟩ := (hcareful.resolve_left hdenied).resolve_left hsame
  rcases h with hclear | ⟨l, hl⟩
  · have hsize := hclear.size
    have hposition := hclear.position
    omega
  · obtain ⟨t, hrun, hdev, ht, -, -⟩ :=
      fLseek_seated hg hs.view_eq hl hle (.inr (hin.lt hg hs.view_eq hl.chain))
    exact sat_of_ok hrun ⟨img, hdev ▸ hs, hend, .inr ⟨l, ht⟩⟩

omit hs in
/-- The end mark at 0 stays when only the file and free clusters change. -/
theorem Seated.first (hl : Seated vol img s.file l) (hconf : Confined img img' l l') :
    END_MARK ≤ img'.next 0 :=
  hconf.first (hl.handle hg).toGrip hend

/-- Writing to a seated handle. -/
theorem fWrite_settled_seated (hl : Seated vol img s.file l)
    (hwrite : s.file.flags &&& FA_WRITE ≠ 0) (hroom : s.file.position < l.length * vol.clusterSize)
    (hsmall : s.file.position + buf.length < 2 ^ 32) :
    (fWrite (some vol) buf s).Leaves (Settled vol) := by
  refine (fWrite_seated hg hs hl hwrite hroom hsmall).sat.mono ?_ ?_
  · rintro n t ⟨-, img', l', hs', hadv, ht, -⟩
    exact ⟨img', hs', hl.first hg hend hadv.wrote.confined, .inr ⟨l', ht⟩⟩
  · rintro e t ⟨n, img', l', -, hs', hadv, ht⟩
    exact ⟨img', hs', hl.first hg hend hadv.wrote.confined, .inr ⟨l', ht⟩⟩

omit hg hs hend in
/-- A write that has to take the first cluster goes on as if the handle had it. -/
theorem fWrite_first {t : OpenFile Disk} (hwrite : s.file.flags &&& FA_WRITE ≠ 0) (hbuf : buf ≠ [])
    (hensure : ensureCluster (some vol) s = .ok () t) (hflags : t.file.flags = s.file.flags)
    (hcurrent : t.file.currentCluster ≠ 0) :
    fWrite (some vol) buf s = fWrite (some vol) buf t := by
  rw [fWrite_loop hwrite hbuf hensure,
    fWrite_loop (hflags ▸ hwrite) hbuf (ensureCluster_skip hcurrent)]

/-- Writing to an empty file that is cleared: it gets a new first cluster. -/
theorem fWrite_settled_cleared (hclear : Cleared s.file) (hwrite : s.file.flags &&& FA_WRITE ≠ 0)
    (hbuf : buf ≠ []) (hsmall : s.file.position + buf.length < 2 ^ 32) :
    (fWrite (some vol) buf s).Leaves (Settled vol) := by
  have hcs := hg.clusterSize_bounds
  have hposition := hclear.position
  rcases allocCluster_cases hg hs with ⟨new, d₁, halloc, hv, hfree, hs₁⟩ | ⟨halloc, -⟩
  · have hne : new ≠ 0 := by
      have := hv.1
      omega
    rw [fWrite_first hwrite hbuf (ensureCluster_alloc hclear.current halloc) rfl hne]
    have hend₁ : END_MARK ≤ (img.mark new).next 0 := by
      rw [Image.mark, Image.next_setEntry_ne _ hne.symm]
      exact hend
    -- a cleared handle is at offset 0 of the cluster that it gets
    have hcur : Cursor vol [new] { s.file with startCluster := new, currentCluster := new }
        s.file.position 0 := by
      refine ⟨rfl, ?_, ?_, ?_⟩
      · simp only [hclear.sector, hclear.byte]
        omega
      · simp only [hclear.sector]
        exact hg.spc_pos
      · simp only [hclear.byte]
        omega
    have hseat : Seated vol (img.mark new)
        { s.file with startCluster := new, currentCluster := new } [new] := by
      refine ⟨chain_mark hv, ?_, ?_, ?_, .inl ⟨0, hcur⟩⟩
      · simp only [hclear.size]
        omega
      · simp only [hposition]
        omega
      · simp only [hclear.size]
        norm_num
    refine fWrite_settled_seated (s := ⟨d₁, { s.file with
      startCluster := new, currentCluster := new }⟩) hg hs₁ hend₁ hseat hwrite ?_ hsmall
    simp only [length_singleton]
    omega
  · -- without a free cluster only the error field changes
    have hfail : fWrite (some vol) buf s =
        .err .mkfsAborted ⟨s.dev, { s.file with error := .mkfsAborted }⟩ := by
      have hensure : ensureCluster (some vol) s =
          .err .mkfsAborted ⟨s.dev, { s.file with error := .mkfsAborted }⟩ := by
        rw [ensureCluster, Op.bind_ok (getFile_run s), if_pos hclear.current,
          Op.bind_err (onVol_err halloc)]
      rw [fWrite, Op.bind_ok (getFile_run s), if_neg hwrite, if_neg hbuf, Op.bind_err hensure]
    rw [hfail]
    exact ⟨img, hs, hend, .inl (hclear.withError _)⟩

theorem fWrite_settled (h : InPlace vol img s.file) (hcareful : Careful vol s (.write buf)) :
    (fWrite (some vol) buf s).Leaves (Settled vol) := by
  by_cases hwrite : s.file.flags &&& FA_WRITE = 0
  · rw [fWrite]
    apply sat_bind_ok (getFile_run s)
    rw [if_pos hwrite]
    exact settled_deny hs hend h
  by_cases hbuf : buf = []
  · subst hbuf
    exact sat_of_ok (fWrite_nil hwrite) ⟨img, hs, hend, h⟩
  obtain ⟨hsmall, hroom⟩ := (hcareful.resolve_left hwrite).resolve_left hbuf
  rcases h with hclear | ⟨l, hl⟩
  · exact fWrite_settled_cleared hg hs hend hclear hwrite hbuf hsmall
  · refine fWrite_settled_seated hg hs hend hl hwrite ?_ hsmall
    rcases hroom with hempty | hin
    · have hcs := hg.clusterSize_bounds
      have hinside := hl.inside
      have hpos := Nat.mul_le_mul_right vol.clusterSize
        (length_pos_of_mem hl.chain.head_mem)
      omega
    · exact hin.lt hg hs.view_eq hl.chain

/-! ### `f_truncate` -/

omit hg hs hend in
/-- The handle of a file that is cut at its position. -/
theorem Seated.truncated {f : File} (hl : Seated vol img f l)
    (hchain : img'.Chain vol f.startCluster l') (hroom : f.position ≤ l'.length * vol.clusterSize)
    (hcursor : (∃ q, Cursor vol l' f f.position q) ∨ AtEnd vol l' f) :
    Seated vol img' f.truncated l' := by
  have hinside := hl.inside
  have hsmall := hl.small
  refine ⟨hchain, hroom, le_rfl, hinside.trans_lt hsmall, ?_⟩
  exact hcursor.imp (fun ⟨q, hq⟩ => ⟨q, hq.cluster, hq.place, hq.sector, hq.byte⟩)
    fun h => ⟨h.position, h.sector, h.byte, h.current⟩

theorem fTruncate_settled (h : InPlace vol img s.file) :
    (fTruncate (some vol) s).Leaves (Settled vol) := by
  by_cases hwrite : s.file.flags &&& FA_WRITE = 0
  · rw [fTruncate]
    apply sat_bind_ok (getFile_run s)
    rw [if_pos hwrite]
    exact settled_deny hs hend h
  rcases h with hclear | ⟨l, hl⟩
  · refine sat_of_ok (fTruncate_nothing hg hs hend hwrite hclear.current) ⟨img, hs, hend, .inl ?_⟩
    exact ⟨hclear.position, hclear.position, hclear.current, hclear.sector, hclear.byte⟩
  have hinside := hl.inside.trans hl.covers
  -- the chain is cut behind the cursor
  have hcut : ∀ {l₁ l₂ : List Nat}, l = l₁ ++ s.file.currentCluster :: l₂ →
      s.file.position ≤ (l₁.length + 1) * vol.clusterSize →
      ((∃ q, Cursor vol (l₁ ++ [s.file.currentCluster]) s.file s.file.position q) ∨
        AtEnd vol (l₁ ++ [s.file.currentCluster]) s.file) →
      (fTruncate (some vol) s).Leaves (Settled vol) := by
    intro l₁ l₂ hsplit hroom hcursor
    obtain ⟨d', img', hrun, hs', hchain, hcutAt⟩ := fTruncate_cuts hg hs hwrite hl.chain hsplit
    have hconf : Confined img img' l (l₁ ++ [s.file.currentCluster]) := hsplit ▸ hcutAt.confined
    refine sat_of_ok hrun
      ⟨img', hs', hl.first hg hend hconf, .inr ⟨_, hl.truncated hchain ?_ hcursor⟩⟩
    rwa [length_append, length_singleton]
  rcases hl.cursor with ⟨q, hq⟩ | hatEnd
  · obtain ⟨hlt, hc⟩ := List.getElem?_eq_some_iff.mp hq.cluster
    have htake : (l.take q).length = q := length_take_of_le hlt.le
    have hsplit : l = l.take q ++ s.file.currentCluster :: l.drop (q + 1) := by
      rw [← hc, ← drop_eq_getElem_cons hlt, take_append_drop]
    have hcur : Cursor vol (l.take q ++ [s.file.currentCluster]) s.file s.file.position q := by
      refine ⟨?_, hq.place, hq.sector, hq.byte⟩
      rw [getElem?_append_right htake.le, htake, Nat.sub_self]
      rfl
    have hroom := hcur.lt_end
    rw [length_append, length_singleton] at hroom
    exact hcut hsplit hroom.le (.inl ⟨q, hcur⟩)
  · rcases hatEnd.current with hzero | hlast
    · refine sat_of_ok (fTruncate_nothing hg hs hend hwrite hzero) ⟨img, hs, hend, .inr ⟨l, ?_⟩⟩
      exact hl.truncated hl.chain hinside (.inr hatEnd)
    · obtain ⟨hlt, hc⟩ := List.getElem?_eq_some_iff.mp hlast
      have hsplit : l.dropLast ++ [s.file.currentCluster] = l := by
        rw [← hc, ← getLast_eq_getElem]
        exact dropLast_append_getLast hl.chain.ne_nil
      have hlen := congrArg length hsplit
      rw [length_append, length_singleton] at hlen
      have hsplit' : l = l.dropLast ++ s.file.currentCluster :: [] := hsplit.symm
      refine hcut hsplit' (by rwa [hlen]) (.inr ?_)
      rwa [hsplit]

/-! ### `f_expand` -/

/-- The number of clusters that hold `size` bytes. -/
def clustersFor (vol : FatVolume) (size : Nat) : Nat :=
  (size + vol.clusterSize - 1) / vol.clusterSize

omit hs hend in
theorem clustersFor_le_iff {n : Nat} : clustersFor vol size ≤ n ↔ size ≤ n * vol.clusterSize := by
  have hcs := hg.clusterSize_bounds
  rw [clustersFor, Nat.div_le_iff_le_mul_add_pred (by omega), Nat.mul_comm n]
  omega

omit hg hs hend in
theorem neededClusters_eq (hpos : 0 < size) (hsum : size + vol.clusterSize ≤ 2 ^ 32)
    (hcs : 0 < vol.clusterSize) : neededClusters vol size = clustersFor vol size := by
  have hmod : (size + vol.clusterSize + (2 ^ 32 - 1)) % 2 ^ 32 = size + vol.clusterSize - 1 := by
    omega
  rw [neededClusters, hmod]
  exact max_eq_left (Nat.div_pos (by omega) hcs)

omit hs hend in
/-- The sum of `f_expand` wraps to less than a cluster. -/
theorem neededClusters_wraps (hsize : size < 2 ^ 32)
    (hsum : ¬ size + vol.clusterSize ≤ 2 ^ 32) : neededClusters vol size = 1 := by
  have hcs := hg.clusterSize_bounds
  have hmod : (size + vol.clusterSize + (2 ^ 32 - 1)) % 2 ^ 32 =
      size + vol.clusterSize - 1 - 2 ^ 32 := by omega
  rw [neededClusters, hmod, Nat.div_eq_of_lt (by omega)]
  rfl

omit hs hend in
/-- The clusters that `f_expand` wants hold the size, unless its sum wraps. -/
theorem neededClusters_covers (hpos : 0 < size) (hsize : size < 2 ^ 32)
    (h : size + vol.clusterSize ≤ 2 ^ 32 ∨ 1 < neededClusters vol size) :
    size ≤ neededClusters vol size * vol.clusterSize := by
  have hcs := hg.clusterSize_bounds
  have hsum : size + vol.clusterSize ≤ 2 ^ 32 := by
    by_contra hwrap
    have hone := neededClusters_wraps hg hsize hwrap
    omega
  rw [neededClusters_eq hpos hsum (by omega)]
  exact (clustersFor_le_iff hg).mp le_rfl

/-- Growing a file whose cursor is in the chain. -/
theorem fExpand_settled_seated (hl : Seated vol img s.file l)
    (hwrite : s.file.flags &&& FA_WRITE ≠ 0)
    (hroom : s.file.position < l.length * vol.clusterSize) (hsize : size < 2 ^ 32) :
    (fExpand (some vol) size s).Leaves (Settled vol) := by
  have hne : s.file.startCluster ≠ 0 := by
    have := hl.chain.head_valid.1
    omega
  have hinside := hl.inside
  have hcovers := hl.covers
  have hpos : 0 < l.length := length_pos_of_mem hl.chain.head_mem
  obtain ⟨q, hq⟩ := hl.cursor_of_lt hroom
  -- the chain is longer, and the cursor is where it was
  have hgrown : ∀ {img' : Image} {l' : List Nat} {f f' : File}, Grew vol img l s.file img' l' f' →
      f = { f' with size := f.size, modified := f.modified, error := f.error } →
      f.size ≤ l'.length * vol.clusterSize → s.file.position ≤ f.size → f.size < 2 ^ 32 →
      Seated vol img' f l' := by
    intro img' l' f f' hgrew hf hsz hin hlt
    obtain rfl : f' = s.file := hgrew.file.resolve_right fun h => hne h.1
    have hcur := hq.grow hgrew.keeps
    rw [hf] at hsz hin hlt ⊢
    exact ⟨hgrew.chain, hsz, hin, hlt, .inl ⟨q, hcur.cluster, hcur.place, hcur.sector, hcur.byte⟩⟩
  refine (fExpand_spec hg hs (.inr hl.chain) hwrite size).mono ?_ ?_
  · rintro - t (rfl | ⟨hlarger, img', l', f', hs', hgrew, hlen, hmore, hfile⟩)
    · exact ⟨img, hs, hend, .inr ⟨l, hl⟩⟩
    · have hcov := neededClusters_covers hg (by omega) hsize (.inr (by omega))
      rw [← hlen] at hcov
      refine ⟨img', hs', hl.first hg hend hgrew.confined, .inr ⟨l', ?_⟩⟩
      rw [hfile]
      exact hgrown hgrew rfl hcov (by simp only; omega) hsize
  · rintro e t (rfl | ⟨img', l', f', hs', hgrew, hfile⟩)
    · exact ⟨img, hs, hend, .inr ⟨l, hl.congr rfl rfl rfl rfl rfl rfl⟩⟩
    · have hgrow := Nat.mul_le_mul_right vol.clusterSize hgrew.keeps.length_le
      have hsame : f' = s.file := hgrew.file.resolve_right fun h => hne h.1
      refine ⟨img', hs', hl.first hg hend hgrew.confined, .inr ⟨l', ?_⟩⟩
      rw [hfile]
      refine hgrown hgrew rfl ?_ ?_ ?_
      · simp only [hsame]
        omega
      · simp only [hsame]
        exact hinside
      · simp only [hsame]
        exact hl.small

/-- Growing an empty file that has no cluster. -/
theorem fExpand_settled_cleared (hclear : Cleared s.file) (hwrite : s.file.flags &&& FA_WRITE ≠ 0)
    (hzero : s.file.startCluster = 0) (hsize : size + vol.clusterSize ≤ 2 ^ 32) :
    (fExpand (some vol) size s).Leaves (Settled vol) := by
  have hcs := hg.clusterSize_bounds
  -- the handle is at the start of its first cluster
  have hgrown : ∀ {img' : Image} {l' : List Nat} {f f' : File}, Grew vol img [] s.file img' l' f' →
      f = { f' with size := f.size, modified := f.modified, error := f.error } →
      f.size ≤ l'.length * vol.clusterSize → f.size < 2 ^ 32 →
      Seated vol img' f l' ∧ END_MARK ≤ img'.next 0 := by
    intro img' l' f f' hgrew hf hsz hlt
    have hchain := hgrew.chain
    rcases hgrew.file with hsame | ⟨-, hfile⟩
    · rw [hsame, hzero] at hchain
      have := hchain.head_valid.1
      omega
    · have hcur : Cursor vol l' f' 0 0 := by
        rw [hfile] at hchain ⊢
        refine ⟨hchain.getElem?_zero, ?_, ?_, ?_⟩
        · simp only [hclear.sector, hclear.byte]
          omega
        · simp only [hclear.sector]
          exact hg.spc_pos
        · simp only [hclear.byte]
          omega
      have hposition : f'.position = 0 := by
        rw [hfile]
        exact hclear.position
      refine ⟨?_, ?_⟩
      · rw [hf] at hsz hlt ⊢
        refine ⟨hchain, hsz, ?_, hlt, .inl ⟨0, hcur.cluster, ?_, hcur.sector, hcur.byte⟩⟩
        · simp only [hposition]
          exact Nat.zero_le _
        · simp only [hposition]
          exact hcur.place
      · have h0 : img.next 0 ≠ 0 := by
          rw [END_MARK] at hend
          omega
        rwa [hgrew.confined.next_eq not_mem_nil h0]
  refine (fExpand_spec hg hs (.inl ⟨hzero, rfl⟩) hwrite size).mono ?_ ?_
  · rintro - t (rfl | ⟨hlarger, img', l', f', hs', hgrew, hlen, -, hfile⟩)
    · exact ⟨img, hs, hend, .inl hclear⟩
    · have hcov := neededClusters_covers hg (by omega) (by omega) (.inl hsize)
      rw [← hlen] at hcov
      obtain ⟨hseat, hend'⟩ :=
        hgrown (f := { f' with size := size, modified := true }) hgrew rfl hcov
        (by simp only; omega)
      exact ⟨img', hs', hend', .inr ⟨l', hfile ▸ hseat⟩⟩
  · rintro e t (rfl | ⟨img', l', f', hs', hgrew, hfile⟩)
    · exact ⟨img, hs, hend, .inl (hclear.withError e)⟩
    · have hsz : f'.size = 0 := by
        rcases hgrew.file with hsame | ⟨-, hf⟩
        · rw [hsame]
          exact hclear.size
        · rw [hf]
          exact hclear.size
      obtain ⟨hseat, hend'⟩ := hgrown (f := { f' with error := e }) hgrew rfl
        (by simp only [hsz]; omega) (by simp only [hsz]; norm_num)
      exact ⟨img', hs', hend', .inr ⟨l', hfile ▸ hseat⟩⟩

theorem fExpand_settled (h : InPlace vol img s.file) (hcareful : Careful vol s (.expand size)) :
    (fExpand (some vol) size s).Leaves (Settled vol) := by
  by_cases hwrite : s.file.flags &&& FA_WRITE = 0
  · rw [fExpand]
    apply sat_bind_ok (getFile_run s)
    rw [if_pos hwrite]
    exact settled_deny hs hend h
  by_cases hsmall : size ≤ s.file.size
  · have hnone : fExpand (some vol) size s = .ok () s := by
      rw [fExpand, Op.bind_ok (getFile_run s), if_neg hwrite, Op.bind_ok (onVol_pure _ _),
        if_pos hsmall]
      rfl
    exact sat_of_ok hnone ⟨img, hs, hend, h⟩
  have hcond := (hcareful.resolve_left hwrite).resolve_left hsmall
  rcases h with hclear | ⟨l, hl⟩
  · rcases hcond with ⟨hzero, hsize⟩ | ⟨-, hcurrent, -⟩
    · exact fExpand_settled_cleared hg hs hend hclear hwrite hzero hsize
    · exact absurd hclear.current hcurrent
  · rcases hcond with ⟨hzero, -⟩ | ⟨hsize, -, hin⟩
    · have := hl.chain.head_valid.1
      omega
    · exact fExpand_settled_seated hg hs hend hl hwrite (hin.lt hg hs.view_eq hl.chain) hsize

omit hg hs hend in
/-- **Every careful call leaves the handle in place.** -/
theorem Settled.step (hg : Geometry vol) (h : Settled vol s) {call : Call}
    (hcareful : Careful vol s call) (hrun : runCall (some vol) s call = some s') :
    Settled vol s' := by
  obtain ⟨img, hs, hend, hplace⟩ := h
  cases call with
  | read len => exact after_of_sat (fRead_settled hg hs hend hplace len) hrun
  | write buf => exact after_of_sat (fWrite_settled hg hs hend hplace hcareful) hrun
  | lseek offset => exact after_of_sat (fLseek_settled hg hs hend hplace hcareful) hrun
  | truncate => exact after_of_sat (fTruncate_settled hg hs hend hplace) hrun
  | expand size => exact after_of_sat (fExpand_settled hg hs hend hplace hcareful) hrun

end Calls

/-! ## Runs -/

/-- The chain of every entry of the tree holds as many bytes as the entry says. -/
def Sized (vol : FatVolume) (img : Image) : Prop :=
  ∀ p : Slot, DirCluster vol img p.1 → p.2 < vol.slotsPerCluster → LiveEntry (img.slot p) →
    (startOf (img.slot p) = 0 ∧ FatVolume.sizeOf (img.slot p) = 0) ∨
    ∃ l, img.Chain vol (startOf (img.slot p)) l ∧
      FatVolume.sizeOf (img.slot p) ≤ l.length * vol.clusterSize

/-- The states that careful calls reach from `s₀`. -/
abbrev CarefulReach (vol : FatVolume) (s₀ : OpenFile Disk) : OpenFile Disk → Prop :=
  Reach (fun s => s = s₀) (Careful vol) fun s call s' => runCall (some vol) s call = some s'

section Runs

variable {d d₁ : Disk} {path : Bytes} {flags : Nat}
  {file : File} {p : Slot}

/-- `f_open` of an entry that is there, with any flags. -/
theorem openExisting_settled (hg : Geometry vol) (hs : Shows vol d img)
    (hend : END_MARK ≤ img.next 0) (hp : vol.Valid p.1)
    (hentry : (startOf (img.slot p) = 0 ∧ FatVolume.sizeOf (img.slot p) = 0) ∨
      ∃ l, img.Chain vol (startOf (img.slot p)) l ∧
        FatVolume.sizeOf (img.slot p) ≤ l.length * vol.clusterSize) :
    (openExisting vol flags p.1 p.2 d).Sat
      (fun f d' => Settled vol ⟨d', f⟩) fun _ _ => True := by
  by_cases halways : flags &&& FA_CREATE_ALWAYS = 0
  · refine (openExisting_sat hg hs.view_eq hp halways).mono ?_ fun _ _ _ => trivial
    rintro f d' ⟨rfl, rfl⟩
    refine ⟨img, hs, hend, ?_⟩
    rcases hentry with ⟨hstart, hsize⟩ | ⟨l, hl, hcovers⟩
    · exact .inl ⟨hsize, rfl, hstart, rfl, rfl⟩
    · exact .inr ⟨l, oldFile_seated hg hl hcovers⟩
  by_cases hnew : flags &&& FA_CREATE_NEW = 0
  · -- the chain is released, and the handle keeps its number
    have htrunc : Truncates flags := ⟨hnew, halways⟩
    obtain ⟨d', img', l, hrun, hs', hrel, hmem⟩ := openExisting_truncated hg hs hp
      (hentry.imp And.left fun ⟨l, hl, _⟩ => ⟨l, hl⟩) htrunc
    refine sat_of_ok hrun ⟨img', hs', ?_, .inl ⟨rfl, rfl, rfl, rfl, rfl⟩⟩
    have h0 : (0 : Nat) ∉ l := by
      intro hmem0
      have := ((hmem 0).mp hmem0).ge_two
      omega
    rwa [Image.next, hrel.fat 0 h0, ← Image.next]
  · rw [openExisting, if_pos hnew]
    trivial

/-- **`f_open` returns a handle in place.** -/
theorem settled_of_open (hg : Geometry vol) (hm : Mirrored vol d) (hw : WellFormed vol (view vol d))
    (hsized : Sized vol (view vol d)) (hpath : PathInTree vol (view vol d) path fun _ _ => True)
    (hopen : fOpen (some vol) path flags d = .ok file d₁) : Settled vol ⟨d₁, file⟩ := by
  have htree := hw.treeOk hg
  have hsat : (openVol vol path flags d).Sat (fun f d' => Settled vol ⟨d', f⟩) fun _ _ => True := by
    apply openVol_sat hg rfl htree hpath (fun _ => trivial)
    · intro c name p hc _ hsel
      obtain ⟨hplace, hindex, hlive⟩ := hsel.in_tree hc
      obtain ⟨m, hm'⟩ := htree _ hplace
      exact openExisting_settled hg hm.shows hw.first hm'.head_valid (hsized p hplace hindex hlive)
    · intro c name hc _ _
      refine (openMissing_sat hg hm.shows htree hc name).mono ?_ fun _ _ _ => trivial
      rintro f d' ⟨new, p, img', rfl, hcreated, hs'⟩
      refine ⟨img', hs', ?_, .inr ⟨[new], newFile_seated hg hcreated.chain⟩⟩
      have hne : (0 : Nat) ≠ new := by
        have := hcreated.valid.1
        omega
      rw [hcreated.written.next_eq, Image.mark, Image.next_setEntry_ne _ hne]
      exact hw.first
  exact hsat.of_ok hopen

/-- **Reads stay in bounds.** A file of a well-formed volume is opened with any flags, along a path
whose components lead to directories. In every state that careful calls reach, the position is not
behind the size, and `f_read` passes no cluster to `cluster_to_lba` but those of the file's chain.
-/
theorem reads_in_bounds (hg : Geometry vol) (hm : Mirrored vol d) (hw : WellFormed vol (view vol d))
    (hsized : Sized vol (view vol d)) (hpath : PathInTree vol (view vol d) path fun _ _ => True)
    (hopen : fOpen (some vol) path flags d = .ok file d₁) (hrun : CarefulReach vol ⟨d₁, file⟩ s) :
    s.file.position ≤ s.file.size ∧ ∀ len c, ReadsCluster vol s len c →
      2 ≤ c ∧ ∃ l, (view vol s.dev).Chain vol s.file.startCluster l ∧ c ∈ l := by
  have hsettled : Settled vol s := by
    refine Reach.invariant (P := Settled vol) ?_ ?_ hrun
    · rintro t rfl
      exact settled_of_open hg hm hw hsized hpath hopen
    · intro t call t' ht hcareful hcall
      exact ht.step hg hcareful hcall
  obtain ⟨img, hs, -, hplace⟩ := hsettled
  refine ⟨hplace.position_le, fun len c hc => ?_⟩
  rw [hs.view_eq]
  exact hplace.reads_own hg hs.view_eq hc

end Runs

/-! ## On the sample volumes -/

theorem full_sized : Sized tinyVol fullImage := by
  rintro ⟨c, i⟩ hc hi hlive
  have hroot : c = 2 := mem_singleton.mp (full_inspected.1.1.mem hc)
  have hslot : ∀ i < 16, LiveEntry (fullImage.slot (2, i)) → i = 0 := by decide +kernel
  subst hroot
  obtain rfl : i = 0 := hslot i hi hlive
  exact .inr ⟨[3], by decide +kernel, by decide +kernel⟩

/-- Seeking to byte 2 of a file of one cluster: the next read visits that cluster only. -/
theorem reads_in_bounds_full : ∃ s,
    runCall (some tinyVol) ⟨fullDisk, fullFile⟩ (.lseek 2) = some s ∧
    s.file.position ≤ s.file.size ∧ ∀ len c, ReadsCluster tinyVol s len c →
      2 ≤ c ∧ ∃ l, (view tinyVol s.dev).Chain tinyVol s.file.startCluster l ∧ c ∈ l := by
  obtain ⟨s, hcall⟩ : ∃ s, runCall (some tinyVol) ⟨fullDisk, fullFile⟩ (.lseek 2) = some s := by
    decide +kernel
  have hcareful : Careful tinyVol ⟨fullDisk, fullFile⟩ (.lseek 2) :=
    .inr (.inr ⟨by show 2 ≤ fullFile.size; decide +kernel, [3], full_inspected.2.1, by decide⟩)
  have hpath : PathInTree tinyVol fullImage [0x2F, 0x46] fun _ _ => True := trivial
  exact ⟨s, hcall, reads_in_bounds tiny_geometry (tiny_mirrored _) full_wellFormed full_sized
    hpath full_open (.step (.init rfl) hcareful hcall)⟩

/-- A writable handle on the file `F` of one byte is moved to position 10: the subtraction wraps,
and `f_read` returns four bytes behind the end. And a handle on the file of one full cluster, moved
to its end, makes `f_read` pass cluster 0. -/
theorem read_past_end :
    Geometry tinyVol ∧ WellFormed tinyVol sampleImage ∧ WellFormed tinyVol fullImage ∧
    (∃ file s s', (fOpen (some tinyVol) [0x2F, 0x46] (FA_READ ||| FA_WRITE) : DevOp Disk File)
        sampleDisk = .ok file sampleDisk ∧ file.size = 1 ∧
      runCall (some tinyVol) ⟨sampleDisk, file⟩ (.lseek 10) = some s ∧
      s.file.size < s.file.position ∧
      fRead (some tinyVol) 4 s = .ok [0, 0, 0, 0] s') ∧
    ∃ s, fOpen (some tinyVol) [0x2F, 0x46] (FA_READ ||| FA_WRITE) fullDisk = .ok fullFile fullDisk ∧
      runCall (some tinyVol) ⟨fullDisk, fullFile⟩ (.lseek 512) = some s ∧
      ReadsCluster tinyVol s 1 0 := by
  have hopen : (fOpen (some tinyVol) [0x2F, 0x46] (FA_READ ||| FA_WRITE) : DevOp Disk File)
      sampleDisk = .ok (oldFile (FA_READ ||| FA_WRITE) (2, 3) (sampleImage.slot (2, 3)))
        sampleDisk :=
    fOpen_unchanged (by decide) (by decide) (by decide +kernel)
  obtain ⟨s, hseek, hlt, s', hread⟩ : ∃ s, runCall (some tinyVol) ⟨sampleDisk,
      oldFile (FA_READ ||| FA_WRITE) (2, 3) (sampleImage.slot (2, 3))⟩ (.lseek 10) = some s ∧
      s.file.size < s.file.position ∧ ∃ s', fRead (some tinyVol) 4 s = .ok [0, 0, 0, 0] s' := by
    decide +kernel
  obtain ⟨t, hseek', hflag, hsome, hcluster⟩ : ∃ s,
      runCall (some tinyVol) ⟨fullDisk, fullFile⟩ (.lseek 512) = some s ∧
      s.file.flags &&& FA_READ ≠ 0 ∧ 0 < s.file.toRead 1 ∧ s.file.currentCluster = 0 := by
    decide +kernel
  exact ⟨tiny_geometry, sample_wellFormed, full_wellFormed,
    ⟨_, s, s', hopen, by decide +kernel, hseek, hlt, hread⟩,
    t, full_open, hseek', hflag, [], t, .start, hsome, hcluster⟩

end PlanckOS.Fat32
