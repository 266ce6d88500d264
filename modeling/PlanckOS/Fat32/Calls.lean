import PlanckOS.Fat32.Handle

/-!
# The calls on an open file

`f_read`, `f_write`, `f_lseek`, `f_truncate` and `f_expand` on a handle whose cursor is in place, in
any order and with any arguments. Whether a call returns a value or an error, the cursor is in place
afterwards and nothing changed outside of the file's chain and the free clusters (`call_kept`). A
handle that is still unmodified has its old start cluster, or got its first one.
-/

set_option autoImplicit false

namespace PlanckOS.Fat32

open Lib.Fallible FatVolume List

variable {l' l₁ l₂ : List Nat} {a : Nat}

/-! ## Calls -/

/-- A call on an open file. -/
inductive Call where
  | read (len : Nat)
  | write (buf : Bytes)
  | lseek (offset : Nat)
  | truncate
  | expand (size : Nat)
  deriving DecidableEq, Repr

/-- The device and the handle after a call. -/
def runCall (vol : Option FatVolume) (s : OpenFile Disk) : Call → Option (OpenFile Disk)
  | .read len => Outcome.after (fRead vol len s)
  | .write buf => Outcome.after (fWrite vol buf s)
  | .lseek offset => Outcome.after (fLseek vol offset s)
  | .truncate => Outcome.after (fTruncate vol s)
  | .expand size => Outcome.after (fExpand vol size s)

/-! ## What every call keeps -/

/-- From the handle `f` with the chain `l` to the state `s'` with the chain `l'`. -/
structure Keeps (vol : FatVolume) (img : Image) (l : List Nat) (f : File) (img' : Image)
    (l' : List Nat) (s' : OpenFile Disk) : Prop where
  shows : Shows vol s'.dev img'
  handle : Handle vol img' s'.file l'
  confined : Confined img img' l l'
  dirSector : s'.file.dirSector = f.dirSector
  dirOffset : s'.file.dirOffset = f.dirOffset
  unmodified : s'.file.modified = false → f.modified = false ∧
    (s'.file.startCluster = f.startCluster ∨ f.startCluster = 0)

/-- The state `s'` is one that a call on the handle `f` may leave. -/
def Kept (vol : FatVolume) (img : Image) (l : List Nat) (f : File) (s' : OpenFile Disk) : Prop :=
  ∃ img' l', Keeps vol img l f img' l' s'

section Calls

variable {vol : FatVolume} {img img' : Image} {s s' : OpenFile Disk} {l : List Nat} {f f' : File}
  {d : Disk}

/-- A call that only moves the cursor. -/
theorem Kept.of_same (hs : Shows vol s'.dev img) (hh : Handle vol img s'.file l)
    (h : SameFile f s'.file) : Kept vol img l f s' := by
  refine ⟨img, l, hs, hh, .refl img l, h.dirSector, h.dirOffset, ?_⟩
  intro hm
  exact ⟨h.modified.symm.trans hm, .inl h.start⟩

/-- A call that marks the file as modified. -/
theorem Kept.of_modified (hs : Shows vol s'.dev img')
    (hh : Handle vol img' s'.file l') (hconf : Confined img img' l l')
    (hsector : s'.file.dirSector = f.dirSector) (hoffset : s'.file.dirOffset = f.dirOffset)
    (hm : s'.file.modified = true) : Kept vol img l f s' := by
  refine ⟨img', l', hs, hh, hconf, hsector, hoffset, ?_⟩
  intro hm'
  exact absurd (hm.symm.trans hm') (by decide)

theorem Handle.withError (h : Handle vol img f l) (e : FError) :
    Handle vol img { f with error := e } l := ⟨⟨h.chain, h.current, h.sector⟩, h.byte⟩

theorem Grip.zero_not_mem (h : Grip vol img f l) : 0 ∉ l := by
  intro h0
  rcases h.chain with ⟨-, rfl⟩ | hl
  · exact absurd h0 not_mem_nil
  · have := (hl.valid_of_mem h0).1
    omega

/-- The reserved entry at 0 is outside of every footprint. -/
theorem Confined.first (h : Confined img img' l l') (hf : Grip vol img f l)
    (hend : END_MARK ≤ img.next 0) : END_MARK ≤ img'.next 0 := by
  have h0 : img.next 0 ≠ 0 := by
    rw [END_MARK] at hend
    omega
  rwa [h.next_eq hf.zero_not_mem h0]

variable (hg : Geometry vol) (hs : Shows vol s.dev img) (hh : Handle vol img s.file l)
  (hend : END_MARK ≤ img.next 0)
include hg hs hh hend

omit hg hend in
/-- A call that the flags of the handle do not allow. -/
theorem deny_sat {α : Type} : ((deny : FileOp Disk α) s).Leaves (Kept vol img l s.file) :=
  sat_deny (.of_same hs (hh.withError _) ⟨rfl, rfl, rfl, rfl⟩)

/-! ## `f_read` -/

theorem fRead_sat (len : Nat) : (fRead (some vol) len s).Leaves (Kept vol img l s.file) := by
  rw [fRead]
  apply sat_bind_ok (getFile_run s)
  by_cases hflag : s.file.flags &&& FA_READ = 0
  · rw [if_pos hflag]
    exact deny_sat hs hh
  rw [if_neg hflag]
  generalize min len ((s.file.size + (2 ^ 32 - s.file.position)) % 2 ^ 32) = toRead
  by_cases hzero : toRead = 0
  · rw [if_pos hzero]
    exact .of_same hs hh (.refl _)
  rw [if_neg hzero]
  apply sat_bind_ok (onVol_pure _ _)
  -- the device stays, and the cursor moves along the chain
  apply sat_loopM (I := fun _ t => t.dev = s.dev ∧ Handle vol img t.file l ∧ SameFile s.file t.file)
  · rintro acc t ⟨hdev, hht, hsame⟩
    by_cases hmore : acc.length < toRead
    · have hview : view vol t.dev = img := hdev ▸ hs.view_eq
      refine (readStep_returns hg hview hht hmore).sat.mono ?_ fun _ _ h => h.elim
      rintro r t' ⟨hdev', bytes, -, ⟨rfl, hmove⟩ | ⟨rfl, -, -, -, hfile⟩⟩
      · have hgrip : Grip vol img (t.file.advance (t.file.room (toRead - acc.length))) l :=
          ⟨hht.chain, hht.current, hht.sector⟩
        have hadv : SameFile t.file (t.file.advance (t.file.room (toRead - acc.length))) :=
          ⟨rfl, rfl, rfl, rfl⟩
        exact ⟨hdev'.trans hdev, hmove.handle hg hend hgrip,
          hsame.trans (hadv.trans hmove.sameFile)⟩
      · refine .of_same (hdev'.symm ▸ hdev.symm ▸ hs) ?_ ?_
        · rw [hfile]
          exact ⟨⟨hht.chain, .inl rfl, hg.spc_pos⟩, Nat.zero_lt_succ _⟩
        · rw [hfile]
          exact hsame.trans ⟨rfl, rfl, rfl, rfl⟩
    · rw [readStep, if_neg hmore]
      exact .of_same (hdev.symm ▸ hs) hht hsame
  · exact ⟨rfl, hh, .refl _⟩

/-! ## `f_write` -/

omit hend in
/-- The cursor has a cluster before the loop starts. -/
theorem ensureCluster_sat : (ensureCluster (some vol) s).Sat
    (fun _ t => ∃ img' l', Shows vol t.dev img' ∧ Handle vol img' t.file l' ∧
      t.file.currentCluster ∈ l' ∧ Confined img img' l l' ∧
      t.file.dirSector = s.file.dirSector ∧ t.file.dirOffset = s.file.dirOffset)
    (fun _ s' => Kept vol img l s.file s') := by
  rw [ensureCluster]
  apply sat_bind_ok (getFile_run s)
  by_cases hzero : s.file.currentCluster = 0
  · rw [if_pos hzero]
    apply sat_bind
    apply sat_onVol
    apply allocCluster_sat hg hs
    · intro new d₁ hv hfree hs₁
      apply sat_of_ok (updateFile_run _ _)
      have hconf : Confined img (img.mark new) l [new] :=
        (Confined.mark hfree l).narrow fun x hx => mem_append_right _ hx
      exact ⟨img.mark new, [new], hs₁,
        ⟨⟨.inr (chain_mark hv), .inr mem_cons_self, hh.sector⟩, hh.byte⟩,
        mem_cons_self, hconf, rfl, rfl⟩
    · exact .of_same hs (hh.withError _) ⟨rfl, rfl, rfl, rfl⟩
  · rw [if_neg hzero]
    exact ⟨img, l, hs, hh, hh.current.resolve_left hzero, .refl img l, rfl, rfl⟩

theorem fWrite_sat (buf : Bytes) : (fWrite (some vol) buf s).Leaves (Kept vol img l s.file) := by
  rw [fWrite]
  apply sat_bind_ok (getFile_run s)
  by_cases hflag : s.file.flags &&& FA_WRITE = 0
  · rw [if_pos hflag]
    exact deny_sat hs hh
  rw [if_neg hflag]
  by_cases hempty : buf = []
  · rw [if_pos hempty]
    exact .of_same hs hh (.refl _)
  rw [if_neg hempty]
  apply sat_bind
  refine (ensureCluster_sat hg hs hh).mono ?_ fun _ _ h => h
  rintro - t ⟨img₁, l₁, hs₁, hh₁, hc₁, hconf₁, hsector₁, hoffset₁⟩
  -- after the first round the handle is modified
  apply sat_loopM (I := fun n u => ∃ img₂ l₂, Shows vol u.dev img₂ ∧ Handle vol img₂ u.file l₂ ∧
    u.file.currentCluster ∈ l₂ ∧ Confined img img₂ l l₂ ∧ u.file.dirSector = s.file.dirSector ∧
    u.file.dirOffset = s.file.dirOffset ∧ (n = 0 ∨ u.file.modified = true))
  · rintro n u ⟨img₂, l₂, hs₂, hh₂, hc₂, hconf₂, hsector₂, hoffset₂, hmod⟩
    have hend₂ := hconf₂.first hh.toGrip hend
    by_cases hmore : n < buf.length
    · have hgrip : ∀ k, Grip vol (img₂.storeData u.file.currentCluster
          (u.file.sectorInCluster * 512 + u.file.byteInSector)
          ((buf.drop n).take (u.file.room (buf.length - n)))) (u.file.wrote k) l₂ :=
        fun _ => ⟨hh₂.chain, hh₂.current, hh₂.sector⟩
      have hconf₃ := hconf₂.trans (Confined.setData hc₂
        (Buf.store (img₂.data u.file.currentCluster)
          (u.file.sectorInCluster * 512 + u.file.byteInSector)
          ((buf.drop n).take (u.file.room (buf.length - n)))))
      refine (writeStep_returns hg hs₂ hh₂ hc₂ hmore).sat.mono ?_ ?_
      · rintro r u' ⟨rfl, img', hs', hturn⟩
        obtain ⟨l', hh', hc', hconf', hsame, -⟩ := hturn.handle hg (by exact hend₂) (hgrip _) hc₂
        exact ⟨img', l', hs', hh', hc', hconf₃.trans hconf', hsame.dirSector.trans hsector₂,
          hsame.dirOffset.trans hoffset₂, .inr hsame.modified⟩
      · rintro e u' ⟨hs', hfile, -⟩
        refine Kept.of_modified hs' ?_ hconf₃ ?_ ?_ ?_
        · rw [hfile]
          exact ⟨⟨hh₂.chain, hh₂.current, hg.spc_pos⟩, Nat.zero_lt_succ _⟩
        · rw [hfile]
          exact hsector₂
        · rw [hfile]
          exact hoffset₂
        · rw [hfile]
          rfl
    · rw [writeStep, if_neg hmore]
      have hpos : n ≠ 0 := by
        rintro rfl
        exact hmore (length_pos_iff.mpr hempty)
      exact Kept.of_modified hs₂ hh₂ hconf₂ hsector₂ hoffset₂ (hmod.resolve_left hpos)
  · exact ⟨img₁, l₁, hs₁, hh₁, hc₁, hconf₁, hsector₁, hoffset₁, .inl rfl⟩

/-! ## `f_lseek` -/

omit hs hh in
theorem seekChain_sat (hv : view vol d = img) (hf : Grip vol img f l) {clu : Nat}
    (hclu : clu = 0 ∨ clu ∈ l) (n : Nat) : (seekChain vol clu n d).Sat
      (fun r d' => d' = d ∧ ∀ c, r = some c → c = 0 ∨ c ∈ l) fun _ _ => False := by
  induction n generalizing clu with
  | zero =>
    refine ⟨rfl, ?_⟩
    intro c hc
    exact Option.some.inj hc ▸ hclu
  | succ n ih =>
    have hlt : clu < vol.maxCluster := by
      rcases hclu with rfl | hmem
      · have := hg.root_valid.2
        omega
      · rcases hf.chain with ⟨-, rfl⟩ | hl
        · exact absurd hmem not_mem_nil
        · exact (hl.valid_of_mem hmem).2
    rw [seekChain]
    apply sat_bind_ok (readFatEntry_shows hg hv hlt)
    by_cases hstop : END_MARK ≤ img.next clu
    · rw [if_pos hstop]
      exact ⟨rfl, fun c hc => nomatch hc⟩
    · rw [if_neg hstop]
      apply ih
      rcases hclu with rfl | hmem
      · exact absurd hend hstop
      · rcases hf.chain with ⟨-, rfl⟩ | hl
        · exact absurd hmem not_mem_nil
        · exact .inr ((hl.next_cases hmem).resolve_right hstop)

theorem fLseek_sat (offset : Nat) :
    (fLseek (some vol) offset s).Leaves (Kept vol img l s.file) := by
  rw [fLseek]
  apply sat_bind_ok (getFile_run s)
  by_cases hflag : s.file.size < offset ∧ s.file.flags &&& FA_WRITE = 0
  · rw [if_pos hflag]
    exact deny_sat hs hh
  rw [if_neg hflag]
  by_cases hsame : offset = s.file.position
  · rw [if_pos hsame]
    exact .of_same hs hh (.refl _)
  rw [if_neg hsame]
  apply sat_bind_ok (onVol_pure _ _)
  apply sat_bind
  apply sat_onVol
  have hstart : s.file.startCluster = 0 ∨ s.file.startCluster ∈ l :=
    hh.chain.imp (fun h => h.1) fun h => h.head_mem
  refine (seekChain_sat hg hend hs.view_eq hh.toGrip hstart _).mono ?_ fun _ _ h => h.elim
  rintro r d' ⟨rfl, hr⟩
  cases r with
  | none =>
    apply sat_of_ok (updateFile_run _ _)
    exact .of_same hs ⟨⟨hh.chain, .inl rfl, hg.spc_pos⟩, Nat.zero_lt_succ _⟩ ⟨rfl, rfl, rfl, rfl⟩
  | some clu =>
    apply sat_of_ok (updateFile_run _ _)
    have hmod : offset % vol.clusterSize < vol.sectorsPerCluster * 512 := by
      apply Nat.mod_lt
      have := hg.spc_pos
      rw [clusterSize_eq]
      omega
    have hsector : offset % vol.clusterSize / SECTOR_SIZE < vol.sectorsPerCluster :=
      Nat.div_lt_of_lt_mul (by rw [SECTOR_SIZE]; omega)
    exact .of_same hs ⟨⟨hh.chain, hr clu rfl, hsector⟩, Nat.mod_lt _ (by decide)⟩
      ⟨rfl, rfl, rfl, rfl⟩

/-! ## `f_truncate` -/

/-- The handle after `f_truncate`. -/
def File.truncated (f : File) : File := { f with size := f.position, modified := true }

/-- From `img` to `img'` a chain was cut behind `c`: the clusters `tail` behind it are free. -/
structure CutAt (img img' : Image) (c : Nat) (tail : List Nat) : Prop where
  last : img'.next c = 0x0FFFFFFF
  freed : ∀ x ∈ tail, img'.next x = 0
  table : ∀ x, x ≠ c → x ∉ tail → img'.fat x = img.fat x
  data : img'.data = img.data

omit hh in
/-- Without a current cluster there is nothing to cut. -/
theorem fTruncate_nothing (hflag : s.file.flags &&& FA_WRITE ≠ 0)
    (hzero : s.file.currentCluster = 0) :
    fTruncate (some vol) s = .ok () ⟨s.dev, s.file.truncated⟩ := by
  have hmax : s.file.currentCluster < vol.maxCluster := by
    have := hg.root_valid.2
    omega
  have hstop : ¬ (2 ≤ img.next s.file.currentCluster ∧
      img.next s.file.currentCluster < END_MARK) := by
    rw [hzero]
    exact fun h => Nat.not_lt.mpr hend h.2
  rw [fTruncate, Op.bind_ok (getFile_run s), if_neg hflag,
    Op.bind_ok (onVol_ok (readFatEntry_shows hg hs.view_eq hmax)),
    Op.bind_ok (onVol_ok (releaseChain_stop hstop)), if_neg (by omega)]
  rfl

omit hh hend in
/-- The chain is cut behind the current cluster. -/
theorem fTruncate_cuts (hflag : s.file.flags &&& FA_WRITE ≠ 0)
    (hl : img.Chain vol s.file.startCluster l)
    (hsplit : l = l₁ ++ s.file.currentCluster :: l₂) :
    ∃ d' img', fTruncate (some vol) s = .ok () ⟨d', s.file.truncated⟩ ∧ Shows vol d' img' ∧
      img'.Chain vol s.file.startCluster (l₁ ++ [s.file.currentCluster]) ∧
      CutAt img img' s.file.currentCluster l₂ := by
  have hc := mem_iff_append.mpr ⟨_, _, hsplit⟩
  have hv := hl.valid_of_mem hc
  have hnodup := hl.nodup hg.not_stop
  rw [hsplit] at hnodup
  -- the clusters behind the current one are released
  have hrelease : ∃ d' img', (releaseChain vol (img.next s.file.currentCluster) : DevOp Disk Unit)
      s.dev = .ok () d' ∧ Shows vol d' img' ∧ Released img img' l₂ := by
    by_cases htail : l₂ = []
    · have hlast : END_MARK ≤ img.next s.file.currentCluster := by
        rw [htail] at hsplit
        exact (hsplit ▸ hl).stop_of_last
      refine ⟨s.dev, img, releaseChain_stop fun h => Nat.not_lt.mpr hlast h.2, hs, ?_⟩
      rw [htail]
      exact .nil img
    · exact releaseChain_ok hg hs ((hsplit ▸ hl).tail_of_split htail)
  obtain ⟨d', img', hrun, hs', hrel⟩ := hrelease
  obtain ⟨d'', hrun', hs''⟩ := writeFatEntry_shows (v := 0x0FFFFFFF) hg hs' hv.2
  have hall : fTruncate (some vol) s = .ok () ⟨d'', s.file.truncated⟩ := by
    rw [fTruncate, Op.bind_ok (getFile_run s), if_neg hflag,
      Op.bind_ok (onVol_ok (readFatEntry_shows hg hs.view_eq hv.2)), Op.bind_ok (onVol_ok hrun),
      if_pos hv.1, Op.bind_ok (onVol_ok hrun')]
    rfl
  refine ⟨d'', img'.mark s.file.currentCluster, hall, hs'', ?_, ?_, ?_, ?_, hrel.data⟩
  · apply (hsplit ▸ hl).cut
    · intro y hy
      have hne : y ≠ s.file.currentCluster := by
        rintro rfl
        exact disjoint_of_nodup_append hnodup hy mem_cons_self
      have hy₂ : y ∉ l₂ := fun h =>
        disjoint_of_nodup_append hnodup hy (mem_cons_of_mem _ h)
      rw [Image.mark, Image.next_setEntry_ne _ hne, Image.next, hrel.fat y hy₂, ← Image.next]
    · exact img'.mark_next_self _
  · rw [Image.mark, Image.next_setEntry_self]
    norm_num
  · intro x hx
    have hne : x ≠ s.file.currentCluster := by
      rintro rfl
      exact (nodup_cons.mp hnodup.of_append_right).1 hx
    rw [Image.mark, Image.next_setEntry_ne _ hne]
    exact hrel.free x hx
  · intro x hne hx₂
    rw [Image.mark, Image.setEntry_ne _ hne, hrel.fat x hx₂]

omit hg hs hh hend in
theorem CutAt.confined {c : Nat} (h : CutAt img img' c l₂) :
    Confined img img' (l₁ ++ c :: l₂) (l₁ ++ [c]) where
  frame x hx _ := by
    rw [mem_append, mem_cons, not_or, not_or] at hx
    exact ⟨h.table x hx.2.1 hx.2.2, congrFun h.data x⟩
  grows x hx := by
    rw [mem_append, mem_singleton] at hx
    rw [mem_append, mem_cons]
    exact .inl (hx.imp_right .inl)

theorem fTruncate_sat : (fTruncate (some vol) s).Leaves (Kept vol img l s.file) := by
  by_cases hflag : s.file.flags &&& FA_WRITE = 0
  · rw [fTruncate]
    apply sat_bind_ok (getFile_run s)
    rw [if_pos hflag]
    exact deny_sat hs hh
  rcases hh.current with hzero | hc
  · apply sat_of_ok (fTruncate_nothing hg hs hend hflag hzero)
    exact .of_modified hs ⟨⟨hh.chain, hh.current, hh.sector⟩, hh.byte⟩ (.refl img l) rfl rfl rfl
  · obtain ⟨l₁, l₂, hsplit⟩ := append_of_mem hc
    obtain ⟨d', img', hrun, hs', hcut, hcutAt⟩ :=
      fTruncate_cuts hg hs hflag (hh.toGrip.chain_of_mem hc) hsplit
    have hmem : s.file.currentCluster ∈ l₁ ++ [s.file.currentCluster] :=
      mem_append_right _ mem_cons_self
    apply sat_of_ok hrun
    exact .of_modified hs' ⟨⟨.inr hcut, .inr hmem, hh.sector⟩, hh.byte⟩ (hsplit ▸ hcutAt.confined)
      rfl rfl rfl

/-! ## `f_expand` -/

/-- The chain `l` of the handle `f` grew to the chain `l'` of the handle `f'`, which got its first
cluster if it had none. -/
structure Grew (vol : FatVolume) (img : Image) (l : List Nat) (f : File) (img' : Image)
    (l' : List Nat) (f' : File) : Prop where
  chain : img'.Chain vol f'.startCluster l'
  keeps : l <+: l'
  confined : Confined img img' l l'
  file : f' = f ∨ (f.startCluster = 0 ∧ f' = { f with
    startCluster := f'.startCluster
    currentCluster := f'.startCluster })

omit hs hh hend in
/-- The clusters are counted. -/
theorem countChain_ok (hv : view vol d = img) (hl : img.Chain vol a l) :
    countChain vol a d = .ok l.length d := by
  have hlen : l.length ≤ vol.maxCluster := chain_length_le hg hl
  have hbound := chain_length_lt hg hl
  have hmax := hg.clusters_le
  rw [END_MARK] at hmax
  have hcount : (countChain vol a d).Returns (fun n d' => d' = d ∧ n = l.length)
      fun _ _ => False := by
    -- the count is the number of clusters up to the current one
    refine returns_loopM (I := fun c t => 1 ≤ c.2 ∧ l[c.2 - 1]? = some c.1 ∧ t = d)
      (fun c => l.length - c.2) ?_ ⟨le_rfl, hl.getElem?_zero, rfl⟩ (by simp only; omega)
    rintro ⟨clu, count⟩ t ⟨hpos, hclu, rfl⟩
    simp only at hpos hclu
    have hlt : count - 1 < l.length := (List.getElem?_eq_some_iff.mp hclu).1
    rw [countStep]
    apply returns_bind_ok (readFatEntry_shows hg hv (hl.valid_of_mem (mem_of_getElem? hclu)).2)
    rcases hl.next_getElem? hclu with hnext | ⟨hlast, hstop⟩
    · rw [if_neg (hg.not_stop _ (hl.valid_of_mem (mem_of_getElem? hnext)))]
      have hmore := (List.getElem?_eq_some_iff.mp hnext).1
      rw [show count - 1 + 1 = (count + 1) % 2 ^ 32 - 1 by omega] at hnext
      exact ⟨⟨by omega, hnext, rfl⟩, by simp only; omega⟩
    · rw [if_pos hstop]
      exact ⟨rfl, by omega⟩
  obtain ⟨n, d', hrun, rfl, rfl⟩ := hcount.ok
  exact hrun

omit hs hh hend in
/-- The walk to the end of a chain finds its last cluster. -/
theorem chainTail_ok (hv : view vol d = img) (hl : img.Chain vol a l) :
    ∃ tail, chainTail vol a d = .ok tail d ∧ l.getLast? = some tail := by
  suffices h : ∀ n, l.length < n → ∃ tail, Op.loopM (tailStep vol) n a d =
      .ok tail d ∧ l.getLast? = some tail from h _ (chain_length_lt hg hl)
  induction hl with
  | @last a ha hstop =>
    intro n hn
    obtain ⟨n, rfl⟩ : ∃ m, n = m + 1 := ⟨n - 1, by omega⟩
    have hstep : tailStep vol a d = .ok (.done a) d := by
      rw [tailStep, Op.bind_ok (readFatEntry_shows hg hv ha.2), if_pos hstop]
      rfl
    exact ⟨a, Op.bind_ok hstep, rfl⟩
  | @link a l ha hl ih =>
    intro n hn
    rw [length_cons] at hn
    obtain ⟨n, rfl⟩ : ∃ m, n = m + 1 := ⟨n - 1, by omega⟩
    obtain ⟨tail, hrun, hlast⟩ := ih n (by omega)
    have hstep : tailStep vol a d = .ok (.next (img.next a)) d := by
      rw [tailStep, Op.bind_ok (readFatEntry_shows hg hv ha.2),
        if_neg (hg.not_stop _ hl.head_valid)]
      rfl
    refine ⟨tail, (Op.bind_ok hstep).trans hrun, ?_⟩
    rw [getLast?_cons, hlast]
    rfl

/-- A file gets fewer than `n` clusters: all that were free were put behind its chain `l`, and the
error `e` is recorded. A file without a cluster stays so when none was free. -/
def Exhausts (vol : FatVolume) (img : Image) (l : List Nat) (s : OpenFile Disk) (n : Nat)
    (e : FError) (s' : OpenFile Disk) : Prop :=
  e = .mkfsAborted ∧
    ((s' = ⟨s.dev, { s.file with error := e }⟩ ∧ l = [] ∧ s.file.startCluster = 0 ∧
        ∀ x, vol.Valid x → img.next x ≠ 0) ∨
      ∃ img' t f', Shows vol s'.dev img' ∧ Grew vol img l s.file img' (l ++ t) f' ∧
        Appended vol img img' l t ∧ s'.file = { f' with error := e } ∧ t.length < n ∧
        ∀ x, vol.Valid x → img.next x = 0 → x ∈ t)

omit hh hend in
/-- **The chain grows** at its end, or begins; on failure as far as there were free clusters. -/
theorem growChain_returns (hchain : (s.file.startCluster = 0 ∧ l = []) ∨
      img.Chain vol s.file.startCluster l) {toAdd : Nat} (hadd : 0 < toAdd) :
    (growChain (some vol) s.file.startCluster toAdd s).Returns
      (fun _ s' => ∃ img' t, Shows vol s'.dev img' ∧
        Grew vol img l s.file img' (l ++ t) s'.file ∧ Appended vol img img' l t ∧ t.length = toAdd)
      (fun e s' => Exhausts vol img l s toAdd e s') := by
  rw [growChain]
  rcases hchain with ⟨hzero, rfl⟩ | hl
  -- a file without clusters first gets one, and the handle is set to it at once
  · rw [if_pos hzero]
    rcases allocCluster_cases hg hs with ⟨new, d₁, halloc, hv, hfree, hs₁⟩ | ⟨halloc, hnone⟩
    · apply returns_bind_ok (onVol_ok halloc)
      apply returns_bind_ok (updateFile_run _ _)
      apply returns_onVol
      have happ₁ : Appended vol img (img.mark new) [] [new] := .mark hv hfree
      have hstill : ∀ x, vol.Valid x → (img.mark new).next x = 0 → x ≠ new ∧ img.next x = 0 := by
        intro x _ h0
        have hne : x ≠ new := by
          rintro rfl
          have hmark := img.mark_next_self x
          rw [h0] at hmark
          exact absurd hmark (by decide)
        exact ⟨hne, img.next_setEntry_ne hne ▸ h0⟩
      refine (appendClusters_returns hg hs₁ (chain_mark hv) rfl (toAdd - 1)).mono ?_ ?_
      · rintro - d' ⟨img', t, hs', hl', happ', hlen⟩
        have happ := happ₁.trans happ' (cons_ne_nil _ _) fun x hx h0 => (hstill x hx h0).2
        refine ⟨img', new :: t, hs', ⟨hl', nil_prefix, happ.confined, .inr ⟨hzero, rfl⟩⟩, happ, ?_⟩
        rw [length_cons]
        omega
      · rintro e d' ⟨he, img', t, hs', hl', happ', hlen, hall⟩
        have happ := happ₁.trans happ' (cons_ne_nil _ _) fun x hx h0 => (hstill x hx h0).2
        refine ⟨he, .inr ⟨img', new :: t,
          { s.file with startCluster := new, currentCluster := new },
          hs', ⟨hl', nil_prefix, happ.confined, .inr ⟨hzero, rfl⟩⟩, happ, rfl, ?_, ?_⟩⟩
        · rw [length_cons]
          omega
        · intro x hx h0
          by_cases hnew : x = new
          · exact hnew ▸ mem_cons_self
          · exact mem_cons_of_mem _ (hall x hx ((img.next_setEntry_ne hnew).trans h0))
    · rw [Op.bind_err (onVol_err halloc)]
      exact ⟨rfl, .inl ⟨rfl, rfl, hzero, hnone⟩⟩
  -- otherwise the clusters go behind the last one, and the handle stays
  · have hne : s.file.startCluster ≠ 0 := by
      have := hl.head_valid.1
      omega
    obtain ⟨tail, htail, hlast⟩ := chainTail_ok hg hs.view_eq hl
    rw [if_neg hne]
    apply returns_onVol
    apply returns_bind_ok htail
    refine (appendClusters_returns hg hs hl hlast toAdd).mono ?_ ?_
    · rintro - d' ⟨img', t, hs', hl', happ, hlen⟩
      exact ⟨img', t, hs', ⟨hl', prefix_append l t, happ.confined, .inl rfl⟩, happ, hlen⟩
    · rintro e d' ⟨he, img', t, hs', hl', happ, hlen, hall⟩
      exact ⟨he, .inr ⟨img', t, s.file, hs', ⟨hl', prefix_append l t, happ.confined, .inl rfl⟩,
        happ, rfl, hlen, hall⟩⟩

/-- The clusters that `f_expand` wants, as it computes them. -/
def neededClusters (vol : FatVolume) (size : Nat) : Nat :=
  max ((size + vol.clusterSize + (2 ^ 32 - 1)) % 2 ^ 32 / vol.clusterSize) 1

omit hh hend in
/-- **`f_expand`** does nothing when the size is reached or the clusters are there. Otherwise it
gives the file its clusters and its size, or all free clusters and an error. -/
theorem fExpand_returns (hchain : (s.file.startCluster = 0 ∧ l = []) ∨
      img.Chain vol s.file.startCluster l) (hflag : s.file.flags &&& FA_WRITE ≠ 0) (size : Nat) :
    (fExpand (some vol) size s).Returns
      (fun _ s' => (s' = s ∧ (size ≤ s.file.size ∨ neededClusters vol size ≤ l.length)) ∨
        (s.file.size < size ∧ l.length < neededClusters vol size ∧ ∃ img' t f',
          Shows vol s'.dev img' ∧ Grew vol img l s.file img' (l ++ t) f' ∧
          Appended vol img img' l t ∧ t.length = neededClusters vol size - l.length ∧
          s'.file = { f' with size := size, modified := true }))
      (fun e s' => s.file.size < size ∧ l.length < neededClusters vol size ∧
        Exhausts vol img l s (neededClusters vol size - l.length) e s') := by
  have hcount : (if s.file.startCluster = 0 then pure 0 else countChain vol s.file.startCluster :
      DevOp Disk Nat) s.dev = .ok l.length s.dev := by
    rcases hchain with ⟨hzero, rfl⟩ | hl
    · rw [if_pos hzero]
      rfl
    · have hne : s.file.startCluster ≠ 0 := by
        have := hl.head_valid.1
        omega
      rw [if_neg hne]
      exact countChain_ok hg hs.view_eq hl
  rw [fExpand]
  apply returns_bind_ok (getFile_run s)
  rw [if_neg hflag]
  apply returns_bind_ok (onVol_pure _ _)
  by_cases hsmall : size ≤ s.file.size
  · rw [if_pos hsmall]
    exact .inl ⟨rfl, .inl hsmall⟩
  rw [if_neg hsmall]
  apply returns_bind_ok (onVol_ok hcount)
  show ((if neededClusters vol size - l.length = 0 then pure () else _ :
    FileOp Disk Unit) s).Returns
    _ _
  -- the early return leaves the size as it is
  by_cases hnone : neededClusters vol size - l.length = 0
  · rw [if_pos hnone]
    exact .inl ⟨rfl, .inr (by omega)⟩
  rw [if_neg hnone]
  apply returns_bind
  refine (growChain_returns hg hs hchain (Nat.pos_of_ne_zero hnone)).mono ?_ ?_
  · rintro - t ⟨img', u, hs', hgrew, happ, hlen⟩
    apply returns_of_ok (updateFile_run _ _)
    exact .inr ⟨by omega, by omega, img', u, t.file, hs', hgrew, happ, hlen, rfl⟩
  · exact fun e s' h => ⟨by omega, by omega, h⟩

omit hh hend in
theorem fExpand_spec (hchain : (s.file.startCluster = 0 ∧ l = []) ∨
      img.Chain vol s.file.startCluster l) (hflag : s.file.flags &&& FA_WRITE ≠ 0) (size : Nat) :
    (fExpand (some vol) size s).Sat
      (fun _ s' => s' = s ∨ (s.file.size < size ∧ ∃ img' l' f', Shows vol s'.dev img' ∧
        Grew vol img l s.file img' l' f' ∧ l'.length = neededClusters vol size ∧
        l.length < l'.length ∧ s'.file = { f' with size := size, modified := true }))
      (fun e s' => s' = ⟨s.dev, { s.file with error := e }⟩ ∨ ∃ img' l' f',
        Shows vol s'.dev img' ∧ Grew vol img l s.file img' l' f' ∧
        s'.file = { f' with error := e }) := by
  refine (fExpand_returns hg hs hchain hflag size).sat.mono ?_ ?_
  · rintro - s' (⟨rfl, -⟩ | ⟨hlarger, hmore, img', t, f', hs', hgrew, -, hlen, hfile⟩)
    · exact .inl rfl
    · have hlen' : (l ++ t).length = l.length + t.length := length_append
      exact .inr ⟨hlarger, img', l ++ t, f', hs', hgrew, by omega, by omega, hfile⟩
  · rintro e s' ⟨-, -, -, ⟨hsame, -⟩ | ⟨img', t, f', hs', hgrew, -, hfile, -⟩⟩
    · exact .inl hsame
    · exact .inr ⟨img', l ++ t, f', hs', hgrew, hfile⟩

omit hg hs hend in
/-- The cursor is in place after the chain grew. -/
theorem Grew.handle (h : Grew vol img l s.file img' l' f') : Handle vol img' f' l' := by
  rcases h.file with rfl | ⟨-, hfile⟩
  · exact ⟨⟨.inr h.chain, hh.current.imp_right (h.keeps.subset ·), hh.sector⟩, hh.byte⟩
  · have hchain := h.chain
    rw [hfile] at hchain ⊢
    exact ⟨⟨.inr hchain, .inr hchain.head_mem, hh.sector⟩, hh.byte⟩

omit hg hs hh hend in
/-- What growing leaves of the handle. -/
theorem Grew.same (h : Grew vol img l f img' l' f') :
    f'.dirSector = f.dirSector ∧ f'.dirOffset = f.dirOffset ∧ f'.modified = f.modified ∧
      (f'.startCluster = f.startCluster ∨ f.startCluster = 0) := by
  rcases h.file with rfl | ⟨hzero, hfile⟩
  · exact ⟨rfl, rfl, rfl, .inl rfl⟩
  · rw [hfile]
    exact ⟨rfl, rfl, rfl, .inr hzero⟩

omit hend in
theorem fExpand_sat (size : Nat) : (fExpand (some vol) size s).Leaves (Kept vol img l s.file) := by
  by_cases hflag : s.file.flags &&& FA_WRITE = 0
  · rw [fExpand]
    apply sat_bind_ok (getFile_run s)
    rw [if_pos hflag]
    exact deny_sat hs hh
  refine (fExpand_spec hg hs hh.chain hflag size).mono ?_ ?_
  · rintro - ⟨d', f⟩ (heq | ⟨-, img', l', f', hs', hgrew, -, -, hfile⟩)
    · rw [heq]
      exact .of_same hs hh (.refl _)
    · have hh' := hgrew.handle hh
      obtain ⟨hsector, hoffset, -, -⟩ := hgrew.same
      subst hfile
      exact .of_modified hs' ⟨⟨hh'.chain, hh'.current, hh'.sector⟩, hh'.byte⟩ hgrew.confined hsector
        hoffset rfl
  · rintro e ⟨d', f⟩ (heq | ⟨img', l', f', hs', hgrew, hfile⟩)
    · rw [heq]
      exact .of_same hs (hh.withError _) ⟨rfl, rfl, rfl, rfl⟩
    · obtain ⟨hsector, hoffset, hmodified, hstart⟩ := hgrew.same
      subst hfile
      exact ⟨img', l', hs', (hgrew.handle hh).withError e, hgrew.confined, hsector, hoffset,
        fun hm => ⟨hmodified.symm.trans hm, hstart⟩⟩

/-- **Every call keeps the cursor in place and changes only the file's chain and free clusters.** -/
theorem call_kept {call : Call} (h : runCall (some vol) s call = some s') :
    Kept vol img l s.file s' := by
  cases call with
  | read len => exact after_of_sat (fRead_sat hg hs hh hend len) h
  | write buf => exact after_of_sat (fWrite_sat hg hs hh hend buf) h
  | lseek offset => exact after_of_sat (fLseek_sat hg hs hh hend offset) h
  | truncate => exact after_of_sat (fTruncate_sat hg hs hh hend) h
  | expand size => exact after_of_sat (fExpand_sat hg hs hh size) h

end Calls

end PlanckOS.Fat32
