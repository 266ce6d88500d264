import PlanckOS.Fat32.Seat
import PlanckOS.Fat32.Opening
import PlanckOS.Lib.Transition

/-!
# Moving through a file and writing to it

A handle that `f_open` returned is at the start of its chain (`oldFile_seated`, `newFile_seated`),
and `f_lseek` to an offset inside the chain seats it there (`fLseek_lands`). The end of a chain that
is filled exactly is the exception: the walk of `f_lseek` takes it for a chain that ended early and
stores a number of clusters as the position. `seek_arrives_iff` says when a seek arrives, and
`seek_to_end_lost` shows one that does not.

The same end is where `f_write` goes wrong: it takes a handle without a current cluster for one on
an empty file and starts a new chain (`append_discards_file`). For all other handles that reads and
seeks reach, `write_keeps_content` says that the old chain stays in front and every byte outside of
the range written is read back as before.
-/

set_option autoImplicit false

namespace PlanckOS.Fat32

open Lib.Word Lib.Fallible List
open Lib.Transition FatVolume

variable {vol : FatVolume} {img : Image} {flags n : Nat} {p : Slot} {e : Entry} {l : List Nat}
  {s s' : OpenFile Disk}

/-! ## Handles that were just opened -/

theorem sizeOf_lt (e : Entry) : FatVolume.sizeOf e < 2 ^ 32 := by
  have h := leVal_lt (fun i => e (0x1C + i)) 4
  rwa [show (256 : Nat) ^ 4 = 2 ^ 32 by decide] at h

/-- A handle on the first byte of its chain. -/
theorem cursor_at_start (hg : Geometry vol) {f : File} (hl : img.Chain vol f.startCluster l)
    (hcurrent : f.currentCluster = f.startCluster) (hsector : f.sectorInCluster = 0)
    (hbyte : f.byteInSector = 0) : Cursor vol l f 0 0 where
  cluster := hcurrent ▸ hl.getElem?_zero
  place := by rw [hsector, hbyte, Nat.zero_mul, Nat.zero_mul]
  sector := hsector ▸ hg.spc_pos
  byte := by omega

/-- A handle at the start of its file. -/
theorem seated_at_start (hg : Geometry vol) {f : File} (hl : img.Chain vol f.startCluster l)
    (hcovers : f.size ≤ l.length * vol.clusterSize) (hsmall : f.size < 2 ^ 32)
    (hposition : f.position = 0) (hcurrent : f.currentCluster = f.startCluster)
    (hsector : f.sectorInCluster = 0) (hbyte : f.byteInSector = 0) : Seated vol img f l := by
  have hcur := cursor_at_start hg hl hcurrent hsector hbyte
  exact ⟨hl, hcovers, by omega, hsmall, .inl ⟨0, hposition ▸ hcur⟩⟩

theorem oldFile_seated (hg : Geometry vol) (hl : img.Chain vol (startOf e) l)
    (hcovers : FatVolume.sizeOf e ≤ l.length * vol.clusterSize) :
    Seated vol img (oldFile flags p e) l :=
  seated_at_start hg hl hcovers (sizeOf_lt e) rfl rfl rfl rfl

theorem newFile_seated (hg : Geometry vol) {new : Nat} (hl : img.Chain vol new [new]) :
    Seated vol img (newFile flags p new) [new] :=
  seated_at_start hg hl (Nat.zero_le _) (by norm_num : (0 : Nat) < 2 ^ 32) rfl rfl rfl rfl

/-! ## Where `f_lseek` goes -/

/-- The clusters of the file behind the handle are `l`, and they hold its bytes. -/
structure OnChain (vol : FatVolume) (img : Image) (f : File) (l : List Nat) : Prop where
  chain : (f.startCluster = 0 ∧ l = []) ∨ img.Chain vol f.startCluster l
  covers : f.size ≤ l.length * vol.clusterSize
  small : f.size < 2 ^ 32

section Seeking

variable {offset : Nat}

/-- Following the chain of a file as far as there is no cluster. -/
theorem OnChain.seekChain_none (hg : Geometry vol) (hend : END_MARK ≤ img.next 0)
    (hv : view vol s.dev = img) (h : OnChain vol img s.file l) (hn : max l.length 1 ≤ n) :
    seekChain vol s.file.startCluster n s.dev = .ok none s.dev := by
  rcases h.chain with ⟨h0, rfl⟩ | hl
  · -- entry 0 of the table is an end mark
    obtain ⟨n, rfl⟩ : ∃ m, n = m + 1 := ⟨n - 1, by omega⟩
    have hmax : 0 < vol.maxCluster := by
      have := hg.root_valid.2
      omega
    rw [h0, seekChain, Op.bind_ok (readFatEntry_shows hg hv hmax), if_pos hend]
    rfl
  · exact seekChain_short hg hv hl hl.getElem?_zero (by omega)

/-- A handle in front of the end of the file with its cursor in place is seated. -/
theorem OnChain.seated (h : OnChain vol img s.file l) (hlt : s.file.position < s.file.size)
    (hcur : ∃ q, Cursor vol l s.file s.file.position q) : Seated vol img s.file l := by
  refine ⟨?_, h.covers, hlt.le, h.small, .inl hcur⟩
  rcases h.chain with ⟨-, rfl⟩ | hl
  · obtain ⟨q, hq⟩ := hcur
    exact absurd hq.mem not_mem_nil
  · exact hl

/-- `f_read` of one byte. -/
theorem Seated.readByte (hg : Geometry vol) (hv : view vol s.dev = img)
    (h : Seated vol img s.file l) (hread : s.file.flags &&& FA_READ ≠ 0)
    (hlt : s.file.position < s.file.size) : ∃ s', fRead (some vol) 1 s =
      .ok [fileByte vol img l s.file.position] s' := by
  obtain ⟨bytes, s', hrun, -, -, -, -, hbytes⟩ := (fRead_seated hg hv h hread 1).ok
  rw [min_eq_left (by omega), fileBytes_one] at hbytes
  exact ⟨s', hbytes ▸ hrun⟩

/-- `f_lseek` to a cluster that is there, or into the first one of an empty file. -/
theorem OnChain.fLseek_lands (hg : Geometry vol) (hv : view vol s.dev = img)
    (h : OnChain vol img s.file l)
    (hallowed : ¬ SeekDenied s.file offset)
    (hne : offset ≠ s.file.position) (hin : offset / vol.clusterSize < max l.length 1) :
    ∃ s', fLseek (some vol) offset s = .ok () s' ∧ s'.dev = s.dev ∧
      s'.file.position = offset ∧ SameText s.file s'.file ∧
      (offset < s.file.size → ∃ q, Cursor vol l s'.file offset q) := by
  have hcs := hg.clusterSize_bounds
  rcases h.chain with ⟨h0, rfl⟩ | hl
  · have hzero : offset / vol.clusterSize = 0 := Nat.lt_one_iff.mp hin
    have hcovers := h.covers
    rw [length_nil, Nat.zero_mul] at hcovers
    have hseek : (seekChain vol s.file.startCluster (offset / vol.clusterSize) : DevOp Disk _)
        s.dev = .ok (some s.file.startCluster) s.dev := by
      rw [hzero]
      rfl
    exact ⟨_, fLseek_jumps hallowed hne hseek, rfl, rfl, ⟨⟨rfl, rfl, rfl, rfl⟩, rfl, rfl⟩,
      fun hlt => by omega⟩
  · have hpos : 0 < l.length := length_pos_of_mem hl.head_mem
    have hoff : offset < l.length * vol.clusterSize :=
      (Nat.div_lt_iff_lt_mul (by omega)).mp (by omega)
    obtain ⟨s', hrun, hdev, hposition, hsame, hcur⟩ := fLseek_inside hg hv hl hallowed hne hoff
    exact ⟨s', hrun, hdev, hposition, hsame, fun _ => hcur⟩

/-- **`f_lseek` arrives at the offset exactly when the chain has its cluster** (or the handle is
there already), and then the byte read next is the one at the offset. -/
theorem seek_arrives_iff (hg : Geometry vol) (hw : WellFormed vol img) (hv : view vol s.dev = img)
    (h : OnChain vol img s.file l)
    (hcur : s.file.position < s.file.size → ∃ q, Cursor vol l s.file s.file.position q)
    (hrun : fLseek (some vol) offset s = .ok () s') : (fTell s'.file = offset ∧
      (offset < s.file.size → s.file.flags &&& FA_READ ≠ 0 →
        ∃ s'', fRead (some vol) 1 s' = .ok [fileByte vol img l offset] s'')) ↔
      offset = s.file.position ∨ offset / vol.clusterSize < max l.length 1 := by
  have hallowed : ¬ SeekDenied s.file offset := by
    intro hdenied
    rw [fLseek, Op.bind_ok (getFile_run s), if_pos hdenied] at hrun
    cases hrun
  by_cases heq : offset = s.file.position
  · obtain rfl : s = s' := (Outcome.ok.inj ((fLseek_same hallowed heq).symm.trans hrun)).2
    subst heq
    exact iff_of_true ⟨rfl, fun hlt hread => (h.seated hlt (hcur hlt)).readByte hg hv hread hlt⟩
      (.inl rfl)
  by_cases hin : offset / vol.clusterSize < max l.length 1
  · -- the walk ends on the cluster of the offset
    obtain ⟨t, hrun', hdev, hposition, hsame, hcur'⟩ := h.fLseek_lands hg hv hallowed heq hin
    obtain rfl : t = s' := (Outcome.ok.inj (hrun'.symm.trans hrun)).2
    refine iff_of_true ⟨hposition, fun hlt hread => ?_⟩ (.inr hin)
    have h' : OnChain vol img t.file l :=
      ⟨hsame.start ▸ h.chain, hsame.size ▸ h.covers, hsame.size ▸ h.small⟩
    have hlt' : t.file.position < t.file.size := by
      rw [hposition, hsame.size]
      exact hlt
    rw [← hposition]
    exact (h'.seated hlt' (hposition ▸ hcur' hlt)).readByte hg (hdev ▸ hv)
      (hsame.flags ▸ hread) hlt'
  · -- the position is the number of a cluster, and not of a byte
    have hshort := h.seekChain_none hg hw.first hv (Nat.not_lt.mp hin)
    rw [fLseek_short hallowed heq hshort] at hrun
    refine iff_of_false ?_ (not_or.mpr ⟨heq, hin⟩)
    rintro ⟨htell, -⟩
    rw [← (Outcome.ok.inj hrun).2, fTell] at htell
    have hcs := hg.clusterSize_bounds
    have hpos : 0 < offset := Nat.pos_of_ne_zero fun h0 => hin (by rw [h0, Nat.zero_div]; omega)
    have hlt := Nat.div_lt_self hpos (show 1 < vol.clusterSize by omega)
    simp only at htell
    omega

end Seeking

/-! ### A file of three clusters -/

/-- A root directory with the file `F` of 1200 bytes in the clusters 3, 4 and 5. -/
def longDisk : Disk := diskOf [0x0FFFFFF8, 0x0FFFFFFF, 0x0FFFFFFF, 4, 5, 0x0FFFFFFF]
  [fileSlot [0x46] 3 1200, [], [0x61, 0x62, 0x63]]

/-- What it shows. -/
abbrev longImage : Image := view tinyVol longDisk

/-- The handle on `F`, for reading and writing. -/
def longFile : File := oldFile (FA_READ ||| FA_WRITE) (2, 0) (longImage.slot (2, 0))

theorem long_inspected :
    Inspected tinyVol longImage [2] [(none, [2]), (some (2, 0), [3, 4, 5])] ∧
    longImage.Chain tinyVol longFile.startCluster [3, 4, 5] ∧ longFile.size = 1200 := by
  decide +kernel

theorem long_wellFormed : WellFormed tinyVol longImage :=
  wellFormed_of_lists _ _ tiny_geometry long_inspected.1

theorem long_chain : longImage.Chain tinyVol longFile.startCluster [3, 4, 5] := long_inspected.2.1

/-- Seeking to byte 514, the third one of the second cluster. -/
theorem seek_arrives_iff_long : ∃ s' s'',
    fLseek (some tinyVol) 514 ⟨longDisk, longFile⟩ = .ok () s' ∧
      fTell s'.file = 514 ∧ fRead (some tinyVol) 1 s' = .ok [0x63] s'' := by
  obtain ⟨⟨s', hrun⟩, hchar⟩ :
      (∃ s', fLseek (some tinyVol) 514 ⟨longDisk, longFile⟩ = .ok () s') ∧
        fileByte tinyVol longImage [3, 4, 5] 514 = 0x63 := by decide +kernel
  have hsize : longFile.size = 1200 := long_inspected.2.2
  have hcursor := cursor_at_start tiny_geometry long_chain rfl rfl rfl
  have hchain : OnChain tinyVol longImage longFile [3, 4, 5] :=
    ⟨.inr long_chain, by rw [hsize]; decide, by rw [hsize]; norm_num⟩
  obtain ⟨htell, hread⟩ := (seek_arrives_iff (s := ⟨longDisk, longFile⟩) tiny_geometry
    long_wellFormed rfl hchain (fun _ => ⟨0, hcursor⟩) hrun).mpr (.inr (by decide))
  obtain ⟨s'', hbyte⟩ := hread (by show 514 < longFile.size; omega) (by decide)
  exact ⟨s', s'', hrun, htell, hchar ▸ hbyte⟩

/-! ### A file that fills its cluster -/

/-- A root directory with the file `F` of 512 bytes, which are those of one cluster. -/
def fullDisk : Disk :=
  diskOf (0x0FFFFFF8 :: replicate 3 0x0FFFFFFF) [fileSlot [0x46] 3 512, [0x61, 0x62, 0x63]]

/-- What it shows. -/
abbrev fullImage : Image := view tinyVol fullDisk

/-- The handle on `F`, for reading and writing. -/
def fullFile : File := oldFile (FA_READ ||| FA_WRITE) (2, 0) (fullImage.slot (2, 0))

theorem full_inspected :
    Inspected tinyVol fullImage [2] [(none, [2]), (some (2, 0), [3])] ∧
    fullImage.Chain tinyVol fullFile.startCluster [3] ∧ fullFile.size = 512 ∧
    ∃ d', (fOpen (some tinyVol) [0x2F, 0x46] (FA_READ ||| FA_WRITE) : DevOp Disk File) fullDisk =
      .ok fullFile d' := by
  decide +kernel

theorem full_wellFormed : WellFormed tinyVol fullImage :=
  wellFormed_of_lists _ _ tiny_geometry full_inspected.1

theorem full_open : (fOpen (some tinyVol) [0x2F, 0x46] (FA_READ ||| FA_WRITE) : DevOp Disk File)
    fullDisk = .ok fullFile fullDisk :=
  fOpen_unchanged (by decide) (by decide) full_inspected.2.2.2

theorem full_onChain : OnChain tinyVol fullImage fullFile [3] := by
  obtain ⟨-, hchain, hsize, -⟩ := full_inspected
  exact ⟨.inr hchain, by rw [hsize]; decide, by rw [hsize]; norm_num⟩

theorem full_cursor : Cursor tinyVol [3] fullFile 0 0 :=
  cursor_at_start tiny_geometry full_inspected.2.1 rfl rfl rfl

/-- Seeking to the end of the file, where its chain ends as well, leaves the position 1. -/
theorem seek_to_end_lost : Geometry tinyVol ∧ WellFormed tinyVol fullImage ∧
    fOpen (some tinyVol) [0x2F, 0x46] (FA_READ ||| FA_WRITE) fullDisk =
      .ok fullFile fullDisk ∧
    OnChain tinyVol fullImage fullFile [3] ∧ fullFile.size = 512 ∧
    ∃ s', fLseek (some tinyVol) 512 ⟨fullDisk, fullFile⟩ = .ok () s' ∧ fTell s'.file = 1 := by
  exact ⟨tiny_geometry, full_wellFormed, full_open, full_onChain, by decide +kernel⟩

/-! ## Writing to a file that is there -/

/-- A move of the cursor: a read, or a seek inside of the file. -/
def Moves (s : OpenFile Disk) : Call → Prop
  | .read _ => True
  | .lseek offset => offset ≤ s.file.size
  | _ => False

/-- The call does not seek to the end of the chain `l` from elsewhere. -/
def StaysInside (vol : FatVolume) (l : List Nat) (s : OpenFile Disk) : Call → Prop
  | .lseek offset => offset = s.file.position ∨ offset < l.length * vol.clusterSize
  | _ => True

section Moving

variable {call : Call}

/-- **A move leaves a seated handle seated.** -/
theorem Seated.move (hg : Geometry vol) (hv : view vol s.dev = img) (h : Seated vol img s.file l)
    (hread : s.file.flags &&& FA_READ ≠ 0) (hmove : Moves s call)
    (hinside : StaysInside vol l s call) (hrun : runCall (some vol) s call = some s') :
    s'.dev = s.dev ∧ Seated vol img s'.file l ∧ SameText s.file s'.file := by
  cases call with
  | read len =>
    refine after_of_sat (P := fun t => t.dev = s.dev ∧ Seated vol img t.file l ∧
      SameText s.file t.file) ?_ hrun
    refine (fRead_seated hg hv h hread len).sat.mono ?_ fun _ _ h => h.elim
    rintro bytes t ⟨hdev, ht, hsame, -, -⟩
    exact ⟨hdev, ht, hsame⟩
  | lseek offset =>
    obtain ⟨t, hseek, hdev, ht, hsame, -⟩ := fLseek_seated hg hv h hmove hinside
    obtain rfl : t = s' := by
      rw [runCall, hseek] at hrun
      exact Option.some.inj hrun
    exact ⟨hdev, ht, hsame⟩
  | write buf => exact hmove.elim
  | truncate => exact hmove.elim
  | expand size => exact hmove.elim

/-- A move on an empty file does nothing. -/
theorem move_empty (hread : s.file.flags &&& FA_READ ≠ 0) (hsize : s.file.size = 0)
    (hposition : s.file.position = 0) (hmove : Moves s call)
    (hrun : runCall (some vol) s call = some s') : s' = s := by
  cases call with
  | read len =>
    have hnone : fRead (some vol) len s = .ok [] s := by
      rw [fRead, Op.bind_ok (getFile_run s), if_neg hread, hsize, hposition, if_pos (by omega)]
      rfl
    rw [runCall, hnone] at hrun
    exact (Option.some.inj hrun).symm
  | lseek offset =>
    have hle : offset ≤ s.file.size := hmove
    rw [runCall, fLseek_same (by omega) (by omega)] at hrun
    exact (Option.some.inj hrun).symm
  | write buf => exact hmove.elim
  | truncate => exact hmove.elim
  | expand size => exact hmove.elim

/-- A byte of the file read through a fresh seek. -/
theorem Seated.readBack (hg : Geometry vol) (hv : view vol s.dev = img)
    (h : Seated vol img s.file l) (hread : s.file.flags &&& FA_READ ≠ 0) {i : Nat}
    (hi : i < s.file.size) : ∃ t t', fLseek (some vol) i s = .ok () t ∧
      fRead (some vol) 1 t = .ok [fileByte vol img l i] t' := by
  obtain ⟨t, hseek, hdev, ht, hsame, hposition⟩ :=
    fLseek_seated hg hv h hi.le (.inr (hi.trans_le h.covers))
  obtain ⟨t', hbyte⟩ := ht.readByte hg (hdev ▸ hv) (hsame.flags ▸ hread)
    (by rw [hposition, hsame.size]; exact hi)
  exact ⟨t, t', hseek, hposition ▸ hbyte⟩

end Moving

section Keeping

variable {d d₁ : Disk} {path : Bytes} {file : File}
  {buf : Bytes}

/-- The states that moves from `s₀` reach without a seek to the end of the chain. -/
abbrev MoveReach (vol : FatVolume) (l : List Nat) (s₀ : OpenFile Disk) : OpenFile Disk → Prop :=
  Reach (fun s => s = s₀) (fun s call => Moves s call ∧ StaysInside vol l s call)
    fun s call s' => runCall (some vol) s call = some s'

/-- Moves from a handle that was just opened. -/
theorem moved_from_open (hg : Geometry vol) (hv : view vol d = img) (hread : flags &&& FA_READ ≠ 0)
    (hfile : OnChain vol img (oldFile flags p e) l)
    (hmoves : MoveReach vol l ⟨d, oldFile flags p e⟩ s) :
    s.dev = d ∧ SameText (oldFile flags p e) s.file ∧
      ((l = [] ∧ s.file = oldFile flags p e) ∨ Seated vol img s.file l) := by
  rcases hfile.chain with ⟨-, rfl⟩ | hl
  · have hsize : (oldFile flags p e).size = 0 := by
      have := hfile.covers
      rw [length_nil, Nat.zero_mul] at this
      omega
    have hsame : s = ⟨d, oldFile flags p e⟩ := by
      refine Reach.invariant (P := fun t => t = (⟨d, oldFile flags p e⟩ : OpenFile Disk))
        (fun _ h => h) ?_ hmoves
      rintro t call t' rfl ⟨hmove, -⟩ hrun
      exact move_empty hread hsize rfl hmove hrun
    rw [hsame]
    exact ⟨rfl, .refl _, .inl ⟨rfl, rfl⟩⟩
  · refine Reach.invariant (P := fun t => t.dev = d ∧ SameText (oldFile flags p e) t.file ∧
      ((l = [] ∧ t.file = oldFile flags p e) ∨ Seated vol img t.file l)) ?_ ?_ hmoves
    · rintro t rfl
      exact ⟨rfl, .refl _, .inr (oldFile_seated hg hl hfile.covers)⟩
    · rintro t call t' ⟨hdev, hsame, ht⟩ ⟨hmove, hinside⟩ hrun
      have ht : Seated vol img t.file l := ht.resolve_left fun h => hl.ne_nil h.1
      obtain ⟨hdev', ht', hsame'⟩ :=
        ht.move hg (hdev ▸ hv) (hsame.flags ▸ hread) hmove hinside hrun
      exact ⟨hdev'.trans hdev, hsame.trans hsame', .inr ht'⟩

/-- **Writing keeps what is there.** A file is opened for reading and writing and moved through by
reads and seeks, none of them to the end of its chain. A write below that end, or to an empty file,
leaves all other bytes as they were, and the old clusters in the chain. -/
theorem write_keeps_content (hg : Geometry vol) (hm : Mirrored vol d)
    (hw : WellFormed vol (view vol d))
    (hopen : fOpen (some vol) path (FA_READ ||| FA_WRITE) d = .ok file d₁)
    (hfile : OnChain vol (view vol d) file l) (hmoves : MoveReach vol l ⟨d₁, file⟩ s)
    (hroom : buf = [] ∨ l = [] ∨ s.file.position < l.length * vol.clusterSize)
    (hsmall : s.file.position + buf.length < 2 ^ 32) (hwrite : fWrite (some vol) buf s = .ok n s') :
    ∃ l', ((s'.file.startCluster = 0 ∧ l' = []) ∨
        (view vol s'.dev).Chain vol s'.file.startCluster l') ∧ l <+: l' ∧
      ∀ i < file.size, (i < s.file.position ∨ s.file.position + n ≤ i) →
        ∃ t t', fLseek (some vol) i s' = .ok () t ∧
          fRead (some vol) 1 t = .ok [fileByte vol (view vol d) l i] t' := by
  obtain ⟨rfl, p, e, rfl⟩ := fOpen_plain (by decide) (by decide) hopen
  have hread : (FA_READ ||| FA_WRITE) &&& FA_READ ≠ 0 := by decide
  have hwritable : (FA_READ ||| FA_WRITE) &&& FA_WRITE ≠ 0 := by decide
  obtain ⟨hdev, hsame, hs⟩ := moved_from_open hg rfl hread hfile hmoves
  have hshows : Shows vol s.dev (view vol d₁) := hdev ▸ hm.shows
  have hwritable' : s.file.flags &&& FA_WRITE ≠ 0 := hsame.flags.symm ▸ hwritable
  have hreadable : s.file.flags &&& FA_READ ≠ 0 := hsame.flags.symm ▸ hread
  by_cases hempty : buf = []
  · -- nothing is written
    subst hempty
    obtain ⟨rfl, rfl⟩ := Outcome.ok.inj ((fWrite_nil hwritable').symm.trans hwrite)
    rw [hshows.view_eq]
    refine ⟨l, hsame.start ▸ hfile.chain, prefix_refl l, fun i hi _ => ?_⟩
    rcases hs with ⟨rfl, -⟩ | hseat
    · have hcovers := hfile.covers
      rw [length_nil, Nat.zero_mul] at hcovers
      omega
    · exact hseat.readBack hg hshows.view_eq hreadable (hsame.size ▸ hi)
  rcases hs with ⟨rfl, hsfile⟩ | hseat
  · -- the first cluster of an empty file
    have hcovers := hfile.covers
    rw [length_nil, Nat.zero_mul] at hcovers
    have hh : Handle vol (view vol d₁) s.file [] := by
      rw [hsfile]
      have hstart : startOf e = 0 := by
        rcases hfile.chain with ⟨h0, -⟩ | hl
        · exact h0
        · exact absurd hl.head_mem not_mem_nil
      exact ⟨⟨hfile.chain, .inl hstart, hg.spc_pos⟩, Nat.zero_lt_succ _⟩
    obtain ⟨img', l', hk⟩ := (fWrite_sat hg hshows hh hw.first buf).of_ok hwrite
    rw [hk.shows.view_eq]
    exact ⟨l', hk.handle.chain, nil_prefix, fun i hi _ => by omega⟩
  · -- the cursor is on the chain, and the bytes outside of the write stay where they were
    have hlt : s.file.position < l.length * vol.clusterSize := by
      rcases hroom with h | rfl | h
      · exact absurd h hempty
      · exact absurd hseat.chain.head_mem not_mem_nil
      · exact h
    obtain ⟨rfl, img', l', hs', hadv, hseat', -⟩ :=
      (fWrite_seated hg hshows hseat hwritable' hlt hsmall).sat.of_ok hwrite
    have hsize := hadv.low
    rw [hsame.size] at hsize
    have hcovers := hfile.covers
    rw [hs'.view_eq]
    refine ⟨l', .inr hseat'.chain, hadv.wrote.keeps, fun i hi hout => ?_⟩
    rw [← hadv.wrote.old i (by omega) hout]
    exact hseat'.readBack hg hs'.view_eq (hadv.flags ▸ hreadable) (by omega)

end Keeping

/-- Writing at byte 2 of the file keeps byte 0. -/
theorem write_keeps_content_full : ∃ s s' t t',
    runCall (some tinyVol) ⟨fullDisk, fullFile⟩ (.lseek 2) = some s ∧
    fWrite (some tinyVol) [0x7A] s = .ok 1 s' ∧
    fLseek (some tinyVol) 0 s' = .ok () t ∧
    fRead (some tinyVol) 1 t = .ok [0x61] t' := by
  obtain ⟨s, hmove, hposition, s', hwrite⟩ : ∃ s,
      runCall (some tinyVol) ⟨fullDisk, fullFile⟩ (.lseek 2) = some s ∧ s.file.position = 2 ∧
      ∃ s', fWrite (some tinyVol) [0x7A] s = .ok 1 s' := by decide +kernel
  have hmoves : MoveReach tinyVol [3] ⟨fullDisk, fullFile⟩ s :=
    .step (i := .lseek 2) (.init rfl) ⟨by show 2 ≤ fullFile.size; decide +kernel,
      .inr (by decide)⟩ hmove
  obtain ⟨-, -, -, hback⟩ := write_keeps_content tiny_geometry (tiny_mirrored _) full_wellFormed
    full_open full_onChain hmoves (.inr (.inr (by rw [hposition]; decide)))
    (by rw [hposition]; decide) hwrite
  obtain ⟨t, t', hseek, hread⟩ := hback 0 (by decide +kernel) (.inl (by rw [hposition]; decide))
  have hbyte : fileByte tinyVol fullImage [3] 0 = 0x61 := by decide +kernel
  exact ⟨s, s', t, t', hmove, hwrite, hseek, hbyte ▸ hread⟩

/-- Reading the file to its end and writing one byte there replaces its chain: the first byte is the
one written. -/
theorem append_discards_file :
    Geometry tinyVol ∧ Mirrored tinyVol fullDisk ∧ WellFormed tinyVol fullImage ∧
    fOpen (some tinyVol) [0x2F, 0x46] (FA_READ ||| FA_WRITE) fullDisk =
      .ok fullFile fullDisk ∧
    OnChain tinyVol fullImage fullFile [3] ∧ fullFile.size = 1 * tinyVol.clusterSize ∧
    fileByte tinyVol fullImage [3] 0 = 0x61 ∧
    ∃ s s' t t', runCall (some tinyVol) ⟨fullDisk, fullFile⟩ (.read 512) = some s ∧
      s.file.position = 512 ∧
      fWrite (some tinyVol) [0x7A] s = .ok 1 s' ∧
      (view tinyVol s'.dev).Chain tinyVol s'.file.startCluster [4] ∧
      fLseek (some tinyVol) 0 s' = .ok () t ∧
      fRead (some tinyVol) 1 t = .ok [0x7A] t' := by
  obtain ⟨s, hmove, hposition, s', hwrite, hstart, hend, t, hseek, t', hread⟩ : ∃ s,
      runCall (some tinyVol) ⟨fullDisk, fullFile⟩ (.read 512) = some s ∧ s.file.position = 512 ∧
      ∃ s', fWrite (some tinyVol) [0x7A] s = .ok 1 s' ∧ s'.file.startCluster = 4 ∧
        END_MARK ≤ (view tinyVol s'.dev).next 4 ∧
      ∃ t, fLseek (some tinyVol) 0 s' = .ok () t ∧
      ∃ t', fRead (some tinyVol) 1 t = .ok [0x7A] t' := by decide +kernel
  refine ⟨tiny_geometry, tiny_mirrored _, full_wellFormed, full_open, full_onChain,
    by decide +kernel, by decide +kernel, s, s', t, t', hmove, hposition, hwrite, ?_, hseek, hread⟩
  rw [hstart]
  exact .last (by decide) hend

end PlanckOS.Fat32
