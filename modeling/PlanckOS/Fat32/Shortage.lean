import PlanckOS.Fat32.Access

/-!
# Running out of clusters

`f_write` takes a new cluster as soon as the last one is full, so a write fails with all clusters of
the file filled. It has then reset the sector and the byte of the cursor, but not the cluster: the
cursor is at the start of the last cluster, and the position is behind its end (`Stuck`). No such
write fails cleanly (`not_failsCleanly`), and the next one, when clusters were freed, begins by
overwriting that cluster (`retry_overwrites`).

`exhausted_write_iff` counts: on a new file, with whatever was read, sought and written before,
every write that fails does so cleanly exactly when none fails, because the clusters of the file and
the free ones together have room for one byte more than is written.
-/

set_option autoImplicit false

namespace PlanckOS.Fat32

open Lib.Word Lib.Fallible List
open Lib.Transition FatVolume

variable {vol : FatVolume} {img img' : Image} {l l' : List Nat} {s s' : OpenFile Disk}

/-! ## Counting clusters -/

section Counting

variable {t : List Nat} {a a' p : Nat}
  {bytes : Bytes}

/-- The free clusters of a volume. -/
theorem mem_free_iff {x : Nat} :
    x ∈ (range' 2 (vol.maxCluster - 2)).filter (fun x => decide (img.next x = 0)) ↔
      vol.Valid x ∧ img.next x = 0 := by
  rw [mem_filter, mem_range'_1, decide_eq_true_eq, Valid]
  constructor
  · rintro ⟨hx, hfree⟩
    exact ⟨by omega, hfree⟩
  · rintro ⟨hx, hfree⟩
    exact ⟨by omega, hfree⟩

theorem length_le_freeCount (hnodup : t.Nodup) (ht : ∀ x ∈ t, vol.Valid x ∧ img.next x = 0) :
    t.length ≤ img.freeCount 2 (vol.maxCluster - 2) := by
  rw [Image.freeCount, countP_eq_length_filter]
  exact (subperm_of_subset hnodup fun x hx => mem_free_iff.mpr (ht x hx)).length_le

theorem freeCount_le_length (ht : ∀ x, vol.Valid x → img.next x = 0 → x ∈ t) :
    img.freeCount 2 (vol.maxCluster - 2) ≤ t.length := by
  rw [Image.freeCount, countP_eq_length_filter]
  refine (subperm_of_subset ((nodup_range' 1 Nat.one_pos).filter _) fun x hx => ?_).length_le
  obtain ⟨hv, hfree⟩ := mem_free_iff.mp hx
  exact ht x hv hfree

/-- The free count grows by the clusters that became free. -/
theorem freeCount_add (hnodup : t.Nodup) (ht : ∀ x ∈ t, vol.Valid x ∧ img.next x ≠ 0)
    (hfree : ∀ x, vol.Valid x → (img'.next x = 0 ↔ x ∈ t ∨ img.next x = 0)) :
    img'.freeCount 2 (vol.maxCluster - 2) = img.freeCount 2 (vol.maxCluster - 2) + t.length := by
  have hfilter : ∀ {i : Image},
      ((range' 2 (vol.maxCluster - 2)).filter fun x => decide (i.next x = 0)).Nodup :=
    (nodup_range' 1 Nat.one_pos).filter _
  have hapart : List.Disjoint
      ((range' 2 (vol.maxCluster - 2)).filter fun x => decide (img.next x = 0)) t :=
    fun x hx hxt => (ht x hxt).2 (mem_free_iff.mp hx).2
  rw [Image.freeCount, Image.freeCount, countP_eq_length_filter, countP_eq_length_filter,
    ← length_append]
  refine (perm_of_nodup_nodup_toFinset_eq hfilter (hfilter.append hnodup hapart) ?_).length_eq
  ext x
  rw [mem_toFinset, mem_toFinset, mem_append, mem_free_iff, mem_free_iff]
  constructor
  · rintro ⟨hv, h0⟩
    exact ((hfree x hv).mp h0).symm.imp_left fun h => ⟨hv, h⟩
  · rintro (⟨hv, h0⟩ | hx)
    · exact ⟨hv, (hfree x hv).mpr (.inr h0)⟩
    · exact ⟨(ht x hx).1, (hfree x (ht x hx).1).mpr (.inl hx)⟩

/-- The clusters that a write takes were free. -/
theorem Wrote.length_le (hg : Geometry vol) (hl' : img'.Chain vol a' l')
    (h : Wrote vol img img' l l' p bytes) :
    l'.length ≤ l.length + img.freeCount 2 (vol.maxCluster - 2) := by
  obtain ⟨t, rfl⟩ := h.keeps
  have hnodup := hl'.nodup hg.not_stop
  have hnew : ∀ x ∈ t, vol.Valid x ∧ img.next x = 0 := by
    intro x hx
    refine ⟨hl'.valid_of_mem (mem_append_right _ hx), ?_⟩
    rcases h.confined.grows x (mem_append_right _ hx) with hold | hfree
    · exact absurd hx (disjoint_of_nodup_append hnodup hold)
    · exact hfree
  have := length_le_freeCount (List.Nodup.of_append_right hnodup) hnew
  rw [length_append]
  omega

/-- When no cluster is free any more, the write took all that were. -/
theorem Wrote.le_length (hl : img.Chain vol a l) (h : Wrote vol img img' l l' p bytes)
    (hfull : ∀ x, vol.Valid x → img'.next x ≠ 0) :
    l.length + img.freeCount 2 (vol.maxCluster - 2) ≤ l'.length := by
  obtain ⟨t, rfl⟩ := h.keeps
  have htaken : ∀ x, vol.Valid x → img.next x = 0 → x ∈ t := by
    intro x hv hfree
    by_contra hx
    refine hfull x hv ((h.free x).mpr ⟨hfree, fun hmem => ?_⟩)
    rcases mem_append.mp hmem with hold | hnew
    · exact chain_next_ne_zero hl hold hfree
    · exact hx hnew
  have := freeCount_le_length htaken
  rw [length_append]
  omega

end Counting

/-! ## New files -/

/-- A handle as `f_open` returns it for a file it created: the file has one cluster. -/
structure Fresh (vol : FatVolume) (img : Image) (f : File) : Prop where
  made : ∃ flags p new, f = newFile flags p new
  chain : img.Chain vol f.startCluster [f.startCluster]

/-- `f_open` with `FA_CREATE_NEW` returns such a handle. -/
theorem fresh_of_open {d d₁ : Disk} {path : Bytes} {flags : Nat} {file : File}
    (hg : Geometry vol) (hm : Mirrored vol d) (hw : WellFormed vol (view vol d))
    (hpath : PathInTree vol (view vol d) path fun _ _ => True)
    (hflags : flags &&& FA_CREATE_NEW ≠ 0)
    (hopen : fOpen (some vol) path flags d = .ok file d₁) :
    ∃ img, Shows vol d₁ img ∧ Fresh vol img file := by
  have htree := hw.treeOk hg
  have hsat : (openVol vol path flags d).Sat
      (fun f d' => ∃ img, Shows vol d' img ∧ Fresh vol img f) fun _ _ => True := by
    apply openVol_sat hg rfl htree hpath (fun _ => trivial)
    · intro c name p _ _ _
      rw [openExisting, if_pos hflags]
      trivial
    · intro c name hc _ _
      refine (openMissing_sat hg hm.shows htree hc name).mono ?_ fun _ _ _ => trivial
      rintro f d' ⟨new, p, img', rfl, hcreated, hs'⟩
      exact ⟨img', hs', ⟨flags, p, new, rfl⟩, hcreated.chain⟩
  exact hsat.of_ok hopen

/-- A call on the file returned `Ok`. -/
def UsedOk (vol : FatVolume) (s : OpenFile Disk) (call : Call) (s' : OpenFile Disk) : Prop :=
  match call with
  | .read len => ∃ bytes, fRead (some vol) len s = .ok bytes s'
  | .write buf => ∃ n, fWrite (some vol) buf s = .ok n s'
  | .lseek offset => (fLseek (some vol) offset : FileOp Disk Unit) s = .ok () s'
  | _ => False

/-- Reads, seeks inside of the file, and writes below 4 GiB. -/
def UsedWithin (s : OpenFile Disk) : Call → Prop
  | .read _ => True
  | .write buf => s.file.position + buf.length < 2 ^ 32
  | .lseek offset => offset ≤ s.file.size
  | _ => False

/-- The states that such calls reach. -/
abbrev UseReach (vol : FatVolume) (s₀ : OpenFile Disk) : OpenFile Disk → Prop :=
  Reach (fun s => s = s₀) UsedWithin (UsedOk vol)

/-- The handle is seated, and the chain has room behind the last byte. -/
structure Roomy (vol : FatVolume) (img : Image) (s : OpenFile Disk) (l : List Nat) : Prop where
  shows : Shows vol s.dev img
  seated : Seated vol img s.file l
  room : s.file.size < l.length * vol.clusterSize

section New

variable {call : Call}

theorem Fresh.roomy (hg : Geometry vol) (hs : Shows vol s.dev img) (h : Fresh vol img s.file) :
    Roomy vol img s [s.file.startCluster] := by
  obtain ⟨flags, p, new, hnew⟩ := h.made
  have hcs := hg.clusterSize_bounds
  have hchain := h.chain
  rw [hnew] at hchain ⊢
  refine ⟨hs, ?_, ?_⟩
  · rw [hnew]
    exact newFile_seated hg hchain
  · rw [hnew]
    show 0 < 1 * vol.clusterSize
    omega

/-- **A call on a file with room leaves room.** -/
theorem Roomy.step (hg : Geometry vol) (h : Roomy vol img s l) (hok : UsedWithin s call)
    (hstep : UsedOk vol s call s') :
    (∃ img' l', Roomy vol img' s' l') ∧ s'.file.flags = s.file.flags := by
  cases call with
  | read len =>
    obtain ⟨bytes, hrun⟩ := hstep
    have hread : s.file.flags &&& FA_READ ≠ 0 := by
      intro hdenied
      rw [fRead, Op.bind_ok (getFile_run s), if_pos hdenied] at hrun
      cases hrun
    obtain ⟨hdev, h', hsame, -, -⟩ :=
      (fRead_seated hg h.shows.view_eq h.seated hread len).sat.of_ok hrun
    exact ⟨⟨img, l, hdev ▸ h.shows, h', hsame.size ▸ h.room⟩, hsame.flags⟩
  | write buf =>
    obtain ⟨n, hrun⟩ := hstep
    have hwrite : s.file.flags &&& FA_WRITE ≠ 0 := by
      intro hdenied
      rw [fWrite, Op.bind_ok (getFile_run s), if_pos hdenied] at hrun
      cases hrun
    have hinside := h.seated.inside
    have hroom := h.room
    obtain ⟨-, img', l', hs', hadv, h', hlt⟩ :=
      (fWrite_seated hg h.shows h.seated hwrite (by omega) hok).sat.of_ok hrun
    obtain ⟨hposition, hsize⟩ := hadv.numbers hinside hok
    have hgrow := Nat.mul_le_mul_right vol.clusterSize hadv.wrote.keeps.length_le
    exact ⟨⟨img', l', hs', h', by omega⟩, hadv.flags⟩
  | lseek offset =>
    have hoff : offset ≤ s.file.size := hok
    have hroom := h.room
    obtain ⟨t, hrun, hdev, h', hsame, -⟩ :=
      fLseek_seated hg h.shows.view_eq h.seated hoff (.inr (by omega))
    obtain rfl : t = s' := (Outcome.ok.inj (hrun.symm.trans hstep)).2
    exact ⟨⟨img, l, hdev ▸ h.shows, h', hsame.size ▸ h.room⟩, hsame.flags⟩
  | truncate => exact hok.elim
  | expand size => exact hok.elim

/-- **Every run of calls on a new file leaves room.** -/
theorem roomy_of_use {s₀ : OpenFile Disk} (hg : Geometry vol) (hs : Shows vol s₀.dev img)
    (h : Fresh vol img s₀.file) (huse : UseReach vol s₀ s) :
    (∃ img' l', Roomy vol img' s l') ∧ s.file.flags = s₀.file.flags := by
  refine Reach.invariant (P := fun t => (∃ img' l', Roomy vol img' t l') ∧
    t.file.flags = s₀.file.flags) ?_ ?_ huse
  · rintro t rfl
    exact ⟨⟨img, _, h.roomy hg hs⟩, rfl⟩
  · rintro t call t' ⟨⟨img', l', ht⟩, hflags⟩ hok hstep
    obtain ⟨ht', hflags'⟩ := ht.step hg hok hstep
    exact ⟨ht', hflags'.trans hflags⟩

end New

/-! ## Writes that fail -/

/-- Clusters were freed, none of them of the chain `l`. -/
def FreedElsewhere (img img' : Image) (l : List Nat) : Prop :=
  (∀ x ∈ l, img'.fat x = img.fat x ∧ img'.data x = img.data x) ∧
    ∀ x, img'.next x = img.next x ∨ img'.next x = 0

/-- What a write of `buf` at the handle `s.file` that fails should leave: the position counts the
bytes that were accepted, the cursor is there or asks for a new cluster, and a later write appends
there. -/
structure FailsCleanly (vol : FatVolume) (s : OpenFile Disk) (buf : Bytes) (s' : OpenFile Disk)
    (l' : List Nat) : Prop where
  accepted : ∃ k ≤ buf.length, s'.file.position = s.file.position + k ∧
    ∀ i < k, fileByte vol (view vol s'.dev) l' (s.file.position + i) = buf.getD i 0
  cursor : (∃ q, Cursor vol l' s'.file s'.file.position q) ∨ s'.file.currentCluster = 0
  appends : ∀ d, FreedElsewhere (view vol s'.dev) (view vol d) l' → ∀ buf₂ n s₂,
    fWrite (some vol) buf₂ ⟨d, s'.file⟩ = .ok n s₂ →
    ∃ l₂, (view vol s₂.dev).Chain vol s₂.file.startCluster l₂ ∧ (∀ i < s'.file.position,
        fileByte vol (view vol s₂.dev) l₂ i = fileByte vol (view vol s'.dev) l' i) ∧
      ∀ i < n, fileByte vol (view vol s₂.dev) l₂ (s'.file.position + i) = buf₂.getD i 0

section Failing

variable {f : File}
  {buf : Bytes}

/-- The cursor of a handle that is stuck is not at its position: the last cluster ends there. -/
theorem Stuck.not_cursor (hg : Geometry vol) (hl : img.Chain vol f.startCluster l)
    (h : Stuck vol img l f) (hposition : f.position = l.length * vol.clusterSize % 2 ^ 32)
    (q : Nat) :
    ¬ Cursor vol l f f.position q := by
  intro hcur
  have hq : q = l.length - 1 := by
    refine (getElem?_inj ?_ (hl.nodup hg.not_stop)).mp (hcur.cluster.trans h.current.symm)
    exact (List.getElem?_eq_some_iff.mp hcur.cluster).1
  have hlt : q < l.length := (List.getElem?_eq_some_iff.mp hcur.cluster).1
  have hplace := hcur.place
  rw [h.sector, h.byte] at hplace
  -- the position would be one cluster short
  have hend : l.length * vol.clusterSize = q * vol.clusterSize + vol.clusterSize := by
    rw [← Nat.succ_mul, show l.length = q.succ by omega]
  have hcs := hg.clusterSize_bounds
  omega

/-- **No write that runs out of clusters fails cleanly.** -/
theorem not_failsCleanly {p n : Nat} (hg : Geometry vol)
    (hadv : Advanced vol img l s.file p (buf.take n) img' l' s'.file) (hn : n ≤ buf.length)
    (hposition : s.file.position = p) (hstuck : Stuck vol img' l' s'.file)
    (hend : p + n = l'.length * vol.clusterSize) : ¬ FailsCleanly vol s buf s' l' := by
  intro hclean
  have hpos := hadv.position
  rw [length_take_of_le hn, hposition, hend] at hpos
  rcases hclean.cursor with ⟨q, hcur⟩ | hzero
  · exact hstuck.not_cursor hg hadv.chain hpos q hcur
  · have := (hadv.chain.valid_of_mem (mem_of_getElem? hstuck.current)).1
    omega

/-- **A write to a new file fails cleanly exactly when it does not fail**: the clusters of the file
and the free ones have room for the bytes and for one more. -/
theorem exhausted_write_iff {s₀ : OpenFile Disk} {img₀ : Image} (hg : Geometry vol)
    (hs₀ : Shows vol s₀.dev img₀) (hfresh : Fresh vol img₀ s₀.file)
    (hwrite : s₀.file.flags &&& FA_WRITE ≠ 0) (huse : UseReach vol s₀ s)
    (hl : (view vol s.dev).Chain vol s.file.startCluster l) (hbuf : buf.length < 2 ^ 64) :
    (∀ e s' l', fWrite (some vol) buf s = .err e s' →
      (view vol s'.dev).Chain vol s'.file.startCluster l' → FailsCleanly vol s buf s' l') ↔
      (s.file.position + buf.length) / vol.clusterSize <
        l.length + (view vol s.dev).freeCount 2 (vol.maxCluster - 2) := by
  obtain ⟨⟨img, l₀, hroomy⟩, hflags⟩ := roomy_of_use hg hs₀ hfresh huse
  rw [hroomy.shows.view_eq] at hl ⊢
  obtain rfl := hroomy.seated.chain.unique hg.not_stop hl
  have hcs := hg.clusterSize_bounds
  have hinside := hroomy.seated.inside
  have hsmall := hroomy.seated.small
  obtain ⟨q, hq⟩ := hroomy.seated.cursor_of_lt (hinside.trans_lt hroomy.room)
  have hret := fWrite_returns hg hroomy.shows hl hq (by omega) (hflags ▸ hwrite) hbuf
  -- a write that fails leaves the cursor at the start of the last cluster, which is full
  constructor
  · intro hclean
    cases hrun : fWrite (some vol) buf s with
    | ok n s' =>
      rw [hrun] at hret
      obtain ⟨-, img', l', -, hadv, q', hq'⟩ := hret
      exact ((Nat.div_lt_iff_lt_mul (by omega)).mpr hq'.lt_end).trans_le
        (hadv.wrote.length_le hg hadv.chain)
    | err e s' =>
      rw [hrun] at hret
      obtain ⟨n, img', l', hn, hs', hadv, hstuck, hend⟩ := hret
      exact absurd (hclean e s' l' hrun (hs'.view_eq.symm ▸ hadv.chain))
        (not_failsCleanly hg hadv hn rfl hstuck hend)
    | fault w =>
      rw [hrun] at hret
      exact hret.elim
  · intro hroom e s' l' hrun
    obtain ⟨n, img', l₁, hn, -, hadv, hstuck, hend⟩ := hret.sat.of_err hrun
    have hall := hadv.wrote.le_length hl hstuck.full
    have hfilled : l₁.length ≤ (s.file.position + buf.length) / vol.clusterSize := by
      rw [Nat.le_div_iff_mul_le (by omega)]
      omega
    omega

end Failing

/-! ## A volume with one free cluster -/

/-- A root directory with the file `G` in cluster 4; all clusters but 3 are taken. -/
def crowdedDisk : Disk := fun lba =>
  if lba = 1 then Sector.ofBuf fun i => if i / 4 = 3 then 0 else leByte 0x0FFFFFFF (i % 4)
  else if lba = 2 then sectorOf (fileSlot [0x47] 4 1)
  else sectorOf []

/-- What it shows. -/
abbrev crowdedImage : Image := view tinyVol crowdedDisk

theorem crowded_wellFormed : WellFormed tinyVol crowdedImage :=
  wellFormed_of_lists [2] [(none, [2]), (some (2, 0), [4])] tiny_geometry (by decide +kernel)

/-- The flags of a new file that is read and written. -/
def useFlags : Nat := FA_READ ||| FA_WRITE ||| FA_CREATE_NEW

/-- A short write to a new file, for which its cluster is enough, and one that fills the cluster:
it does not fail cleanly. -/
theorem exhausted_write_iff_crowded : ∃ file d₁,
    fOpen (some tinyVol) [0x2F, 0x46] useFlags crowdedDisk = .ok file d₁ ∧
    (∀ e s' l', fWrite (some tinyVol) [0x61] ⟨d₁, file⟩ = .err e s' →
      (view tinyVol s'.dev).Chain tinyVol s'.file.startCluster l' →
      FailsCleanly tinyVol ⟨d₁, file⟩ [0x61] s' l') ∧
    ¬ ∀ e s' l', fWrite (some tinyVol) (replicate 512 0x61) ⟨d₁, file⟩ = .err e s' →
      (view tinyVol s'.dev).Chain tinyVol s'.file.startCluster l' →
      FailsCleanly tinyVol ⟨d₁, file⟩ (replicate 512 0x61) s' l' := by
  obtain ⟨d₁, hopen, hend, hnone⟩ : ∃ d₁, fOpen (some tinyVol) [0x2F, 0x46] useFlags crowdedDisk =
      .ok (newFile useFlags (2, 1) 3) d₁ ∧ END_MARK ≤ (view tinyVol d₁).next 3 ∧
      (view tinyVol d₁).freeCount 2 (tinyVol.maxCluster - 2) = 0 := by decide +kernel
  have hchain : (view tinyVol d₁).Chain tinyVol 3 [3] := .last (by decide) hend
  have hpath : PathInTree tinyVol crowdedImage [0x2F, 0x46] fun _ _ => True := trivial
  obtain ⟨img, hs, hfresh⟩ := fresh_of_open tiny_geometry (tiny_mirrored _) crowded_wellFormed
    hpath (by decide) hopen
  have hiff := fun (buf : Bytes) (hlen : buf.length < 2 ^ 64) =>
    exhausted_write_iff (s := ⟨d₁, newFile useFlags (2, 1) 3⟩) tiny_geometry hs hfresh
      (by decide : useFlags &&& FA_WRITE ≠ 0) (.init rfl) hchain hlen
  have hshort : (0 + 1) / tinyVol.clusterSize < 1 := by decide
  have hlong : ¬ (0 + 512) / tinyVol.clusterSize < 1 + 0 := by decide
  refine ⟨_, d₁, hopen, (hiff [0x61] (by decide)).mpr (Nat.lt_add_right _ hshort), fun hclean => ?_⟩
  have hroom := (hiff (replicate 512 0x61) (by rw [length_replicate]; decide)).mp hclean
  rw [length_replicate, hnone] at hroom
  exact hlong hroom

/-- A write that fills the only free cluster fails. After `f_unlink` of `/G` the next one succeeds,
and it overwrites the first byte of the file. -/
theorem retry_overwrites :
    Geometry tinyVol ∧ Mirrored tinyVol crowdedDisk ∧ WellFormed tinyVol crowdedImage ∧
    ∃ file d₁ s₁ d₂ s₂, fOpen (some tinyVol) [0x2F, 0x46] useFlags crowdedDisk = .ok file d₁ ∧
      fWrite (some tinyVol) (replicate 512 0x61) ⟨d₁, file⟩ =
        .err .mkfsAborted s₁ ∧
      (view tinyVol s₁.dev).Chain tinyVol s₁.file.startCluster [3] ∧
      s₁.file.position = 512 ∧ s₁.file.currentCluster = 3 ∧ s₁.file.sectorInCluster = 0 ∧
      s₁.file.byteInSector = 0 ∧ fileByte tinyVol (view tinyVol s₁.dev) [3] 0 = 0x61 ∧
      fUnlink (some tinyVol) [0x2F, 0x47] s₁.dev = .ok () d₂ ∧
      fWrite (some tinyVol) [0x7A] ⟨d₂, s₁.file⟩ = .ok 1 s₂ ∧
      s₂.file.startCluster = 3 ∧ fileByte tinyVol (view tinyVol s₂.dev) [3] 0 = 0x7A := by
  obtain ⟨file, d₁, hopen, s₁, hfail, ⟨hstart, hend, hplace⟩, d₂, hunlink, s₂, hretry⟩ : ∃ file d₁,
      fOpen (some tinyVol) [0x2F, 0x46] useFlags crowdedDisk = .ok file d₁ ∧
      ∃ s₁, fWrite (some tinyVol) (replicate 512 0x61) ⟨d₁, file⟩ = .err .mkfsAborted s₁ ∧
      (s₁.file.startCluster = 3 ∧ END_MARK ≤ (view tinyVol s₁.dev).next 3 ∧
        s₁.file.position = 512 ∧ s₁.file.currentCluster = 3 ∧ s₁.file.sectorInCluster = 0 ∧
        s₁.file.byteInSector = 0 ∧ fileByte tinyVol (view tinyVol s₁.dev) [3] 0 = 0x61) ∧
      ∃ d₂, fUnlink (some tinyVol) [0x2F, 0x47] s₁.dev = .ok () d₂ ∧
      ∃ s₂, fWrite (some tinyVol) [0x7A] ⟨d₂, s₁.file⟩ = .ok 1 s₂ ∧
        s₂.file.startCluster = 3 ∧ fileByte tinyVol (view tinyVol s₂.dev) [3] 0 = 0x7A := by
    decide +kernel
  obtain ⟨hposition, hcurrent, hsector, hbyte, hold⟩ := hplace
  refine ⟨tiny_geometry, tiny_mirrored _, crowded_wellFormed, file, d₁, s₁, d₂, s₂, hopen, hfail,
    ?_, hposition, hcurrent, hsector, hbyte, hold, hunlink, hretry⟩
  rw [hstart]
  exact .last (by decide) hend

end PlanckOS.Fat32
