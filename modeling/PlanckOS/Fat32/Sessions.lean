import PlanckOS.Fat32.Isolation
import PlanckOS.Fat32.Changes

/-!
# Sessions

A session opens one regular file, makes any calls on the handle and ends with `f_sync` and
`f_close`. Sessions alternate with `f_mkdir`, `f_rename` and `f_unlink`. After each of them the
volume is well formed again: every live entry has no cluster or a proper chain of its own, and the
reserved entries of the table are as they were (`sessions_wellFormed`).

This needs two things of a session. The path has to lead through directories, as in the other
results about `f_open`. And a session that truncates a file with `FA_CREATE_ALWAYS` has to write to
it first: `f_open` frees the chain but leaves its start cluster in the slot and in the handle, and
only the first `f_write` replaces it (`Refills`). Without it the entry keeps a start cluster that is
free (`truncated_entry_dangles`).
-/

set_option autoImplicit false

namespace PlanckOS.Fat32

open Lib.Fallible List
open Lib.Transition FatVolume

variable {vol : FatVolume} {img img' : Image} {s s' : OpenFile Disk} {l : List Nat} {f : File}
  {flags : Nat}

/-! ## Operations on a volume -/

/-- A session on one file, or an operation on the tree. -/
inductive VolumeOp where
  | session (path : Bytes) (flags : Nat) (calls : List Call)
  | tree (op : TreeOp)
  deriving DecidableEq, Repr

/-- The disk after a session. `f_close` does nothing. -/
def runSession (vol : FatVolume) (d : Disk) (path : Bytes) (flags : Nat) (calls : List Call) :
    Option Disk :=
  match (fOpen (some vol) path flags : DevOp Disk File) d with
  | .ok file d₁ => (runSteps (runCall (some vol)) ⟨d₁, file⟩ calls).bind fun s =>
      (Outcome.after (fSync (some vol) s)).map (·.dev)
  | .err _ d₁ => some d₁
  | .fault _ => none

/-- The disk after an operation that returned, with a value or with an error. -/
def runOp (vol : FatVolume) (d : Disk) : VolumeOp → Option Disk
  | .session path flags calls => runSession vol d path flags calls
  | .tree op => runTreeOp vol d op

/-- `f_open` with these flags truncates a file that exists. -/
def Truncates (flags : Nat) : Prop := flags &&& FA_CREATE_NEW = 0 ∧ flags &&& FA_CREATE_ALWAYS ≠ 0

/-- A call that does nothing on a file that was just truncated. -/
def Call.Idle : Call → Prop
  | .read _ => True
  | .write buf => buf = []
  | .lseek offset => offset = 0
  | .truncate => False
  | .expand _ => False

/-- Before anything else the session writes some bytes. -/
def Refills (flags : Nat) (calls : List Call) : Prop :=
  flags &&& FA_WRITE ≠ 0 ∧ ∃ idle buf rest, calls = idle ++ .write buf :: rest ∧
    (∀ call ∈ idle, call.Idle) ∧ buf ≠ []

/-- The file selected for a session is regular, and a truncated file with clusters is refilled. -/
def SelectsSession (vol : FatVolume) (img : Image) (flags : Nat) (calls : List Call) (c : Nat)
    (name : Bytes) : Prop :=
  ∀ p, Selects vol img c name p → ¬ IsDirEntry (img.slot p) ∧
    (Truncates flags → startOf (img.slot p) ≠ 0 → Refills flags calls)

/-- The paths of the operation lead through directories of the tree, and it acts on regular files.
-/
def VolumeOp.Sound (vol : FatVolume) (img : Image) : VolumeOp → Prop
  | .session path flags calls => PathInTree vol img path (SelectsSession vol img flags calls)
  | .tree (.mkdir path) => PathInTree vol img path fun _ _ => True
  | .tree (.rename oldPath newPath) => PathInTree vol img oldPath (SelectsRegular vol img) ∧
      PathInTree vol img newPath fun _ _ => True
  | .tree (.unlink path) => PathInTree vol img path (SelectsRegular vol img)

/-! ## The end of a session -/

/-- The handle's own chain completes the tree. -/
theorem Attached.complete (hg : Geometry vol) (h : Attached vol img f l)
    (hstart : startOf (img.slot f.slot) = f.startCluster ∨ startOf (img.slot f.slot) = 0) :
    WellFormed vol img := by
  apply h.others.complete hg
  intro _
  rcases hstart with hstart | h0
  · rcases h.handle.chain with ⟨h0, -⟩ | hl
    · exact .inl (hstart.trans h0)
    · exact .inr ⟨l, hstart ▸ hl, h.own⟩
  · exact .inl h0

/-- **`f_sync` leaves a well-formed volume behind.** -/
theorem Attached.synced (hg : Geometry vol) (hs : Shows vol s.dev img)
    (h : Attached vol img s.file l) (hsync : Outcome.after (fSync (some vol) s) = some s') :
    ∃ img', Shows vol s'.dev img' ∧ WellFormed vol img' ∧ img'.fat = img.fat := by
  obtain ⟨m, hm⟩ := treeOk_of_heads hg (fun o ho hd => h.others.heads o ho fun heq =>
    h.entry (by subst heq; exact hd)) _ h.place
  refine after_of_sat (P := fun s' => ∃ img', Shows vol s'.dev img' ∧ WellFormed vol img' ∧
    img'.fat = img.fat) ?_ hsync
  refine (fSync_sat hg hs hm.head_valid).mono ?_ fun _ _ h => h.elim
  rintro - s' (⟨hmod, rfl⟩ | ⟨-, -, -, img', hs', hwritten, hslot⟩)
  · exact ⟨img, hs, h.complete hg (h.linked hmod), rfl⟩
  -- the slot now has the start cluster of the handle
  have hbytes : ∀ k ≤ 0x0B, img'.slot s.file.slot k = img.slot s.file.slot k := by
    intro k hk
    rw [hslot, syncedEntry_of_lt _ _ (by omega)]
  have hkind := entry_kind_congr hbytes
  have hentry : ¬ Subdirectory (img'.slot s.file.slot) := by
    rw [Subdirectory, hkind.1, hkind.2.1, hkind.2.2]
    exact h.entry
  have hret : Retained vol img img' s.file.slot :=
    ⟨h.entry, hentry, fun x _ => congrFun hwritten.next_eq x,
      fun q hq _ hi => hwritten.slots q hq hi⟩
  have hbut : WellFormedBut vol img' s.file.slot :=
    hret.wellFormedBut hg h.others (hwritten.next_eq ▸ h.others.first)
      (hwritten.next_eq ▸ h.others.second)
  refine ⟨img', hs', hbut.complete hg fun _ => ?_, hwritten.fat⟩
  rcases h.handle.chain with ⟨h0, -⟩ | hl
  · left
    rw [hslot, syncedEntry, h0]
    exact startOf_storeStart _ (by decide)
  · right
    have hlt := hg.lt_end hl.head_valid
    rw [END_MARK] at hlt
    rw [hslot, syncedEntry, startOf_storeStart _ (by omega)]
    refine ⟨l, hl.congr fun x _ => congrFun hwritten.next_eq x, ?_⟩
    intro x hx hp
    exact h.own x hx ((hret.protected_iff hg h.others).mp hp)

/-! ## Truncated files -/

/-- The handle on a file that `f_open` truncated. -/
def truncatedFile (flags : Nat) (p : Slot) (e : Entry) : File :=
  { oldFile flags p e with size := 0, currentCluster := 0 }

/-- The handle is on a truncated file and can still be repaired by writing. -/
structure Stale (vol : FatVolume) (img : Image) (f : File) : Prop where
  others : WellFormedBut vol img f.slot
  entry : ¬ Subdirectory (img.slot f.slot)
  place : DirCluster vol img f.slot.1
  index : f.slot.2 < vol.slotsPerCluster
  current : f.currentCluster = 0
  position : f.position = 0
  size : f.size = 0
  sector : f.sectorInCluster < vol.sectorsPerCluster
  byte : f.byteInSector < 512
  writable : f.flags &&& FA_WRITE ≠ 0
  room : ∃ x, vol.Valid x ∧ img.next x = 0

section Truncation

variable {d : Disk} {p : Slot}
  {buf : Bytes}

/-- **The branch of `f_open` that truncates.** -/
theorem openExisting_truncated (hg : Geometry vol) (hs : Shows vol d img) (hp : vol.Valid p.1)
    (hstart : startOf (img.slot p) = 0 ∨ ∃ l, img.Chain vol (startOf (img.slot p)) l)
    (hflags : Truncates flags) : ∃ d' img' l, openExisting vol flags p.1 p.2 d =
        .ok (truncatedFile flags p (img.slot p)) d' ∧ Shows vol d' img' ∧ Released img img' l ∧
      ∀ x, x ∈ l ↔ Owner.Holds vol img (some p) x := by
  obtain ⟨d', img', l, hrun, hs', hrel, hmem⟩ := releaseChain_start hg hs hstart
  refine ⟨d', img', l, ?_, hs', hrel, hmem⟩
  rw [openExisting, if_neg (not_not_intro hflags.1),
    Op.bind_ok (readEntryData_shows hg hs.view_eq hp p.2), if_pos hflags.2]
  exact Op.bind_ok hrun

/-- The handle is stale when the file had clusters. -/
theorem truncated_stale (hg : Geometry vol) (hw : WellFormed vol img)
    (hp : Owner.Live vol img (some p)) (hreg : ¬ IsDirEntry (img.slot p))
    (hrel : Released img img' l)
    (hmem : ∀ x, x ∈ l ↔ Owner.Holds vol img (some p) x) (hstart : startOf (img.slot p) ≠ 0)
    (hflags : flags &&& FA_WRITE ≠ 0) : Stale vol img' (truncatedFile flags p (img.slot p)) := by
  have hslot : ∀ q, img'.slot q = img.slot q := by
    intro q
    rw [Image.slot, Image.slot, hrel.data]
  have hnext : ∀ x, x ∉ l → img'.next x = img.next x := by
    intro x hx
    rw [Image.next, Image.next, hrel.fat x hx]
  have hsub := not_subdirectory_of_regular hreg
  have hret : Retained vol img img' p := by
    refine ⟨hsub, (hslot p).symm ▸ hsub, ?_, fun q _ _ _ => hslot q⟩
    intro x hx
    exact hnext x fun hxl => hw.own hp ((hmem x).mp hxl) hx
  have hreserved : ∀ x < 2, img'.next x = img.next x := by
    intro x hx
    apply hnext
    intro hxl
    obtain ⟨m, hm, hxm⟩ := (hmem x).mp hxl
    have := (hm.valid_of_mem hxm).1
    omega
  -- the first write finds a cluster: one of those just released
  have hroom : ∃ x, vol.Valid x ∧ img'.next x = 0 := by
    obtain ⟨m, hm⟩ := (hw.heads _ hp).resolve_left hstart
    exact ⟨_, hm.head_valid, hrel.free _ ((hmem _).mpr ⟨m, hm, hm.head_mem⟩)⟩
  constructor
  · exact hret.wellFormedBut hg (hw.but p) ((hreserved 0 (by decide)).symm ▸ hw.first)
      ((hreserved 1 (by decide)).symm ▸ hw.second)
  · exact (hslot p).symm ▸ hsub
  · exact (hret.dirCluster_iff hg (hw.but p)).mpr hp.1
  · exact hp.2.1
  · rfl
  · rfl
  · rfl
  · exact hg.spc_pos
  · exact Nat.zero_lt_succ _
  · exact hflags
  · exact hroom

theorem Stale.withError (h : Stale vol img f) (e : FError) : Stale vol img { f with error := e } :=
  ⟨h.others, h.entry, h.place, h.index, h.current, h.position, h.size, h.sector, h.byte, h.writable,
    h.room⟩

/-- Nothing happens before the first bytes are written. -/
theorem Stale.idle {call : Call} (h : Stale vol img f) (hidle : call.Idle)
    (hcall : runCall (some vol) ⟨d, f⟩ call = some s') : s'.dev = d ∧ Stale vol img s'.file := by
  cases call with
  | read len =>
    refine after_of_sat (P := fun s' => s'.dev = d ∧ Stale vol img s'.file) ?_ hcall
    rw [fRead]
    apply sat_bind_ok (getFile_run _)
    by_cases hflag : f.flags &&& FA_READ = 0
    · rw [if_pos hflag]
      exact sat_deny ⟨rfl, h.withError _⟩
    · have hnone : min len ((f.size + (2 ^ 32 - f.position)) % 2 ^ 32) = 0 := by
        rw [h.size, h.position]
        omega
      rw [if_neg hflag]
      simp only [hnone, if_true]
      exact ⟨rfl, h⟩
  | write buf =>
    rw [Call.Idle] at hidle
    refine after_of_sat (P := fun s' => s'.dev = d ∧ Stale vol img s'.file) ?_ hcall
    rw [fWrite]
    apply sat_bind_ok (getFile_run _)
    rw [if_neg h.writable, if_pos hidle]
    exact ⟨rfl, h⟩
  | lseek offset =>
    rw [Call.Idle] at hidle
    refine after_of_sat (P := fun s' => s'.dev = d ∧ Stale vol img s'.file) ?_ hcall
    rw [fLseek]
    apply sat_bind_ok (getFile_run _)
    rw [if_neg fun hd => h.writable hd.2, if_pos (hidle.trans h.position.symm)]
    exact ⟨rfl, h⟩
  | truncate => exact hidle.elim
  | expand size => exact hidle.elim

variable (hg : Geometry vol) (hs : Shows vol d img) (h : Stale vol img f) (hbuf : buf ≠ [])
include hg hs h hbuf

/-- `f_write` sets the start cluster and the mark of a modified file before it reads them. -/
theorem fWrite_stale : fWrite (some vol) buf ⟨d, f⟩ =
      fWrite (some vol) buf ⟨d, { f with startCluster := 0, modified := true }⟩ := by
  obtain ⟨x, hx, hfree⟩ := h.room
  obtain ⟨new, d₁, halloc, -⟩ :=
    (allocCluster_cases hg hs).resolve_right fun hfull => hfull.2 x hx hfree
  have hloop : ∀ g : File, g.currentCluster = 0 → g.flags &&& FA_WRITE ≠ 0 →
      fWrite (some vol) buf ⟨d, g⟩ = Op.loopM (writeStep (some vol) buf)
        LOOP_BOUND 0 ⟨d₁, { g with startCluster := new, currentCluster := new }⟩ := by
    intro g hzero hflag
    exact fWrite_loop hflag hbuf (ensureCluster_alloc hzero halloc)
  -- the first round marks the file as modified
  have hround : ∀ g : File, writeStep (some vol) buf 0 ⟨d₁, g⟩ =
      writeStep (some vol) buf 0 ⟨d₁, { g with modified := true }⟩ := by
    intro g
    rw [writeStep, if_pos (length_pos_iff.mpr hbuf)]
    rfl
  obtain ⟨n, hbound⟩ := loopBound_succ
  have hrepaired := hloop { f with startCluster := 0, modified := true } h.current h.writable
  refine (hloop f h.current h.writable).trans (Eq.trans ?_ hrepaired.symm)
  rw [hbound, Op.loopM]
  exact Op.bind_congr (hround _)

/-- **The first bytes written bring the handle a chain of its own.** -/
theorem Stale.write (hcall : runCall (some vol) ⟨d, f⟩ (.write buf) = some s') :
    ∃ img' l', Shows vol s'.dev img' ∧ Attached vol img' s'.file l' ∧
      ∀ x < 2, img'.fat x = img.fat x := by
  have hatt : Attached vol img { f with startCluster := 0, modified := true } [] := by
    refine ⟨h.others, h.entry, h.place, h.index, ?_, fun x hx => absurd hx not_mem_nil,
      fun hm => nomatch hm⟩
    exact ⟨⟨.inl ⟨rfl, rfl⟩, .inl h.current, h.sector⟩, h.byte⟩
  rw [runCall, fWrite_stale hg hs h hbuf] at hcall
  have hcall' :
    runCall (some vol) ⟨d, { f with startCluster := 0, modified := true }⟩ (.write buf) =
      some s' := hcall
  have hk := call_kept hg hs hatt.handle hatt.others.first hcall'
  obtain ⟨img', l', hs', hatt', -, -, -, hres⟩ := hatt.of_kept hg hk
  exact ⟨img', l', hs', hatt', hres⟩

end Truncation

/-! ## Runs of operations -/

section Runs

variable {d d' : Disk}

/-- The disk shows a well-formed volume with the reserved entries of `img`. -/
def Restored (vol : FatVolume) (img : Image) (d : Disk) : Prop :=
  ∃ img', Shows vol d img' ∧ WellFormed vol img' ∧ ∀ x < 2, img'.fat x = img.fat x

/-- Changes of free clusters. -/
theorem Spares.restored (hg : Geometry vol) (hw : WellFormed vol img)
    (hs : Shows vol d img') (h : Spares img img') : Restored vol img d := by
  refine ⟨img', hs, h.wellFormed hg hw, ?_⟩
  intro x hx
  refine (h x ?_).1
  have hend : END_MARK ≤ img.next x := by
    interval_cases x
    · exact hw.first
    · exact hw.second
  rw [END_MARK] at hend
  omega

/-- A chain has no reserved cluster. -/
theorem Owner.Holds.ge_two {o : Owner} {x : Nat} (h : o.Holds vol img x) : 2 ≤ x := by
  obtain ⟨l, hl, hx⟩ := h
  exact (hl.valid_of_mem hx).1

section

variable (hg : Geometry vol) (hs : Shows vol d img)
include hg hs

/-- `f_open` for a session attaches the handle, or leaves it to the session to refill the file. -/
theorem openVol_session {path : Bytes} {calls : List Call} (hw : WellFormed vol img)
    (hpath : PathInTree vol img path (SelectsSession vol img flags calls)) :
    (openVol vol path flags d).Sat
      (fun f d' => ∃ img', Shows vol d' img' ∧ (∀ x < 2, img'.fat x = img.fat x) ∧
        ((∃ l, Attached vol img' f l) ∨ (Refills flags calls ∧ Stale vol img' f)))
      fun _ d' => Restored vol img d' := by
  have ht := hw.treeOk hg
  have hsame : Restored vol img d := ⟨img, hs, hw, fun _ _ => rfl⟩
  apply openVol_sat hg hs.view_eq ht hpath (fun _ => hsame)
  · intro c name p hc hfinal hsel
    obtain ⟨hplace, hindex, hlive⟩ := hsel.in_tree hc
    obtain ⟨hreg, hrefill⟩ := hfinal p hsel
    have hown : Owner.Live vol img (some p) := ⟨hplace, hindex, hlive, not_dot_of_regular hreg⟩
    obtain ⟨m, hm⟩ := ht _ hplace
    obtain ⟨l, hatt⟩ : ∃ l, Attached vol img (oldFile flags p (img.slot p)) l :=
      oldFile_attached hg hw hplace hindex hlive hreg
    -- opened as it is, truncated, or refused
    by_cases halways : flags &&& FA_CREATE_ALWAYS = 0
    · refine (openExisting_sat hg hs.view_eq hm.head_valid halways).mono ?_ ?_
      · rintro f d' ⟨rfl, rfl⟩
        exact ⟨img, hs, fun _ _ => rfl, .inl ⟨l, hatt⟩⟩
      · rintro e d' rfl
        exact hsame
    by_cases hnew : flags &&& FA_CREATE_NEW = 0
    · have htrunc : Truncates flags := ⟨hnew, halways⟩
      obtain ⟨d', img', l', hrun, hs', hrel, hmem⟩ := openExisting_truncated hg hs hm.head_valid
        (hw.heads _ hown) htrunc
      apply sat_of_ok hrun
      have hres : ∀ x < 2, img'.fat x = img.fat x := by
        intro x hx
        apply hrel.fat
        intro hxl
        have := ((hmem x).mp hxl).ge_two
        omega
      by_cases hstart : startOf (img.slot p) = 0
      · -- nothing was released, and the handle has no cluster
        have hnone : ∀ x, x ∉ l' := by
          intro x hx
          obtain ⟨m, hm, -⟩ := (hmem x).mp hx
          have := hm.head_valid.1
          rw [Owner.start] at this
          omega
        have himg : img' = img := Image.ext (funext fun x => hrel.fat x (hnone x)) hrel.data
        subst himg
        refine ⟨img', hs', hres,
          .inl ⟨[], hw.but p, not_subdirectory_of_regular hreg, hplace, hindex,
          ?_, fun x hx => absurd hx not_mem_nil, fun _ => .inl rfl⟩⟩
        exact ⟨⟨.inl ⟨hstart, rfl⟩, .inl rfl, hg.spc_pos⟩, Nat.zero_lt_succ _⟩
      · -- the slot still names the released chain until the session has written
        have hr := hrefill htrunc hstart
        exact ⟨img', hs', hres, .inr ⟨hr, truncated_stale hg hw hown hreg hrel hmem hstart hr.1⟩⟩
    · rw [openExisting, if_pos hnew]
      exact hsame
  · intro c name hc _ _
    refine (openMissing_sat hg hs ht hc name).mono ?_ ?_
    · rintro f d' ⟨new, p, img', rfl, hcreated, hs'⟩
      refine ⟨img', hs', ?_, .inl ⟨[new], hcreated.attached hg hw⟩⟩
      intro x hx
      rw [hcreated.written.fat]
      refine img.setEntry_ne ?_
      have := hcreated.valid.1
      omega
    · rintro e d' (rfl | ⟨new, hfree, hs'⟩)
      · exact hsame
      · exact (Spares.mark hfree).restored hg hw hs'

/-- The calls of a session bring the handle to its slot, or keep it there. -/
theorem session_calls {calls : List Call}
    (h : (∃ l, Attached vol img f l) ∨ (Refills flags calls ∧ Stale vol img f))
    (hrun : runSteps (runCall (some vol)) ⟨d, f⟩ calls = some s) :
    ∃ img' l, Shows vol s.dev img' ∧ Attached vol img' s.file l ∧
      ∀ x < 2, img'.fat x = img.fat x := by
  have hrest : ∀ {s₀ : OpenFile Disk} {img : Image} {l : List Nat} {calls : List Call},
      Shows vol s₀.dev img → Attached vol img s₀.file l →
      runSteps (runCall (some vol)) s₀ calls = some s →
      ∃ img' l, Shows vol s.dev img' ∧ Attached vol img' s.file l ∧
        ∀ x < 2, img'.fat x = img.fat x := by
    intro s₀ img l calls hs hatt hrun
    exact (attached_of_run hg hs hatt (Reach.of_run (.init rfl) (fun _ _ _ => trivial) hrun)).1
  rcases h with ⟨l, hatt⟩ | ⟨⟨-, idle, buf, rest, rfl, hidle, hbuf⟩, hstale⟩
  · exact hrest hs hatt hrun
  -- the idle calls at the front, then the write
  induction idle generalizing f with
  | nil =>
    rw [nil_append, runSteps, Option.bind_eq_some_iff] at hrun
    obtain ⟨s₁, hcall, hrun⟩ := hrun
    obtain ⟨img₁, l₁, hs₁, hatt₁, hres₁⟩ := hstale.write hg hs hbuf hcall
    obtain ⟨img₂, l₂, hs₂, hatt₂, hres₂⟩ := hrest hs₁ hatt₁ hrun
    exact ⟨img₂, l₂, hs₂, hatt₂, fun x hx => (hres₂ x hx).trans (hres₁ x hx)⟩
  | cons call idle ih =>
    rw [cons_append, runSteps, Option.bind_eq_some_iff] at hrun
    obtain ⟨s₁, hcall, hrun⟩ := hrun
    obtain ⟨rfl, hstale₁⟩ := hstale.idle (hidle call mem_cons_self) hcall
    exact ih hstale₁ hrun fun c hc => hidle c (mem_cons_of_mem _ hc)

/-- **One operation** leaves a well-formed volume behind. -/
theorem runOp_restored {op : VolumeOp} (hw : WellFormed vol img) (hop : op.Sound vol img)
    (hrun : runOp vol d op = some d') :
    Restored vol img d' := by
  have hsame : Restored vol img d := ⟨img, hs, hw, fun _ _ => rfl⟩
  cases op with
  | session path flags calls =>
    have hopen := openVol_session hg hs hw hop
    rw [runOp, runSession] at hrun
    cases ho : fOpen (some vol) path flags d with
    | ok f d₁ =>
      simp only [ho, Option.bind_eq_some_iff, Option.map_eq_some_iff] at hrun
      obtain ⟨s, hcalls, s', hsync, rfl⟩ := hrun
      obtain ⟨img₁, hs₁, hres₁, hf⟩ := hopen.of_ok ho
      obtain ⟨img₂, l, hs₂, hatt, hres₂⟩ := session_calls hg hs₁ hf hcalls
      obtain ⟨img₃, hs₃, hw₃, hfat⟩ := hatt.synced hg hs₂ hsync
      refine ⟨img₃, hs₃, hw₃, ?_⟩
      intro x hx
      rw [hfat, hres₂ x hx, hres₁ x hx]
    | err e d₁ =>
      simp only [ho, Option.some.injEq] at hrun
      exact hrun ▸ hopen.of_err ho
    | fault w =>
      simp only [ho] at hrun
      cases hrun
  | tree op =>
    cases op with
    | mkdir path =>
      refine after_of_sat (P := Restored vol img) ?_ hrun
      refine (fMkdir_sat hg hs hw hop).mono ?_ fun _ _ ⟨img', hs', h⟩ => h.restored hg hw hs'
      rintro - d' ⟨c, name, new, q, img', -, -, -, -, -, hs', hmade⟩
      refine ⟨img', hs', (hmade.added hg).wellFormed hg hw, ?_⟩
      intro x hx
      rw [hmade.fat]
      refine img.setEntry_ne ?_
      have := hmade.valid.1
      omega
    | rename oldPath newPath =>
      refine after_of_sat (P := Restored vol img) ?_ hrun
      refine (fRename_sat hg hs hw hop.1 hop.2).mono ?_ ?_
      · rintro - d' ⟨c, name, p, c', name', q, img', hc, hfinal, hsel, -, -, -, -, -, hs', hmoved⟩
        obtain ⟨hplace, hindex, hlive⟩ := hsel.in_tree hc
        refine ⟨img', hs', hmoved.wellFormed hg hw ⟨hplace, hindex, hlive,
          not_dot_of_regular (hfinal p hsel)⟩, fun x _ => congrFun hmoved.fat x⟩
      · rintro e d' rfl
        exact hsame
    | unlink path =>
      refine after_of_sat (P := Restored vol img) ?_ hrun
      refine (fUnlink_sat hg hs hw hop fun _ _ p hfinal hsel =>
        not_dot_of_regular (hfinal p hsel)).mono ?_ ?_
      · rintro - d' ⟨c, name, p, img', -, -, -, hp, hs', hun⟩
        refine ⟨img', hs', hun.wellFormed hg hw hp, ?_⟩
        intro x hx
        apply hun.table
        intro hx'
        have := hx'.ge_two
        omega
      · rintro e d' rfl
        exact hsame

end

/-- **No dangling and no cross-linked chains.** From a well-formed volume, after any sequence of
sessions and operations on the tree that are sound where they happen, every live entry has no
cluster or a finite chain of allocated clusters with an end mark, the chains of different entries
are disjoint, all copies of the table are equal, and its two reserved entries are unchanged. -/
theorem sessions_wellFormed (vol : FatVolume) (d₀ d : Disk) (hg : Geometry vol)
    (hm : Mirrored vol d₀) (hw : WellFormed vol (view vol d₀))
    (hrun : Reach (fun d => d = d₀) (fun d (op : VolumeOp) => op.Sound vol (view vol d))
      (fun d op d' => runOp vol d op = some d') d) : Mirrored vol d ∧ WellFormed vol (view vol d) ∧
      ∀ k < vol.numFats, ∀ x < 2, rawEntry vol d k x = rawEntry vol d₀ k x := by
  have h : Restored vol (view vol d₀) d := by
    refine Reach.invariant (P := Restored vol (view vol d₀)) ?_ ?_ hrun
    · rintro s rfl
      exact ⟨_, hm.shows, hw, fun _ _ => rfl⟩
    · rintro s op s' ⟨img, hs, hw', hres⟩ hop hstep
      rw [hs.view_eq] at hop
      obtain ⟨img', hs', hw'', hres'⟩ := runOp_restored hg hs hw' hop hstep
      exact ⟨img', hs', hw'', fun x hx => (hres' x hx).trans (hres x hx)⟩
  obtain ⟨img, hs, hw', hres⟩ := h
  rw [hs.view_eq]
  refine ⟨hs.mirrored, hw', ?_⟩
  intro k hk x hx
  have hmax : x < vol.maxCluster := by
    have := hg.root_valid.1
    have := hg.root_valid.2
    omega
  rw [hs.rawEntry_eq hg hk hmax, hm.shows.rawEntry_eq hg hk hmax, hres x hx]

end Runs

/-! ## On the sample volume -/

/-- The lookup of `F` in the root directory of the sample volume. -/
theorem sample_scan_F : scanDir sampleImage [0x46] (tinyVol.dirSlots [2]) = some (some (2, 3)) := by
  decide +kernel

/-- Truncating the file `F` and writing a byte. -/
theorem sessions_wellFormed_sample : ∃ d, runOp tinyVol sampleDisk
      (.session [0x2F, 0x46] (FA_WRITE ||| FA_CREATE_ALWAYS) [.read 1, .write [0x58]]) = some d ∧
    WellFormed tinyVol (view tinyVol d) := by
  obtain ⟨d, hrun⟩ : ∃ d, runOp tinyVol sampleDisk (.session [0x2F, 0x46]
      (FA_WRITE ||| FA_CREATE_ALWAYS) [.read 1, .write [0x58]]) = some d := by decide +kernel
  have hsound : VolumeOp.Sound tinyVol sampleImage (.session [0x2F, 0x46]
      (FA_WRITE ||| FA_CREATE_ALWAYS) [.read 1, .write [0x58]]) := by
    intro p hp
    obtain rfl := sample_selects (by decide) sample_scan_F hp
    refine ⟨by decide +kernel, fun _ _ => ⟨by decide, [.read 1], [0x58], [], rfl, ?_, by decide⟩⟩
    intro call hcall
    obtain rfl := mem_singleton.mp hcall
    trivial
  exact ⟨d, hrun, (sessions_wellFormed tinyVol sampleDisk d tiny_geometry (tiny_mirrored _)
    sample_wellFormed (.step (.init rfl) hsound hrun)).2.1⟩

/-- A session that truncates the file `F` and does not write to it leaves the entry of `F` with a
start cluster that is free. -/
theorem truncated_entry_dangles :
    Geometry tinyVol ∧ Mirrored tinyVol sampleDisk ∧ WellFormed tinyVol sampleImage ∧
    namedSlot sampleImage [0x46] (tinyVol.dirSlots [2]) = some (2, 3) ∧
    ¬ IsDirEntry (sampleImage.slot (2, 3)) ∧
    ∃ d, runOp tinyVol sampleDisk
        (.session [0x2F, 0x46] (FA_WRITE ||| FA_CREATE_ALWAYS) []) = some d ∧
      LiveEntry ((view tinyVol d).slot (2, 3)) ∧ startOf ((view tinyVol d).slot (2, 3)) = 5 ∧
      (view tinyVol d).next 5 = 0 ∧ ¬ WellFormed tinyVol (view tinyVol d) := by
  obtain ⟨d, hop, hlive, hdot, hstart, hfree⟩ : ∃ d, runOp tinyVol sampleDisk
      (.session [0x2F, 0x46] (FA_WRITE ||| FA_CREATE_ALWAYS) []) = some d ∧
      LiveEntry ((view tinyVol d).slot (2, 3)) ∧ ¬ IsDot ((view tinyVol d).slot (2, 3)) ∧
      startOf ((view tinyVol d).slot (2, 3)) = 5 ∧ (view tinyVol d).next 5 = 0 := by
    decide +kernel
  refine ⟨tiny_geometry, tiny_mirrored _, sample_wellFormed, by decide +kernel,
    by decide +kernel, d, hop, hlive, hstart, hfree, ?_⟩
  intro hw
  have hown : Owner.Live tinyVol (view tinyVol d) (some (2, 3)) :=
    ⟨.root, by decide, hlive, hdot⟩
  rcases hw.heads _ hown with h0 | ⟨l, hl⟩
  · rw [Owner.start, hstart] at h0
    exact absurd h0 (by decide)
  · rw [Owner.start, hstart] at hl
    exact chain_next_ne_zero hl hl.head_mem hfree

end PlanckOS.Fat32
