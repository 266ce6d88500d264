import PlanckOS.Applets.Terminal
import PlanckOS.Fat32.Access
import PlanckOS.Fat32.Listing

/-!
# Open files in the applets

An applet calls a file operation with the handle of an open file and looks at the result
(`attemptFile`). What it may count on is `Delivers`: `f_read` returns the bytes ahead of the handle
in order, and `f_lseek` to 0 goes back to the first one. A handle whose cursor is in its place
delivers the bytes of its file (`Seated.delivers`).
-/

set_option autoImplicit false

namespace PlanckOS.Applets

open Lib.Fallible Fat32 FatVolume List

section Model

variable {δ : Type}

/-- Call an operation on an open file; its result and the handle. -/
def attemptFile {α : Type} (x : FileOp δ α) (file : File) : TermOp δ (Except FError α × File) :=
  fun s =>
    match x ⟨s.dev, file⟩ with
    | .ok a t => .ok (.ok a, t.file) { s with dev := t.dev }
    | .err e t => .ok (.error e, t.file) { s with dev := t.dev }
    | .fault w => .fault w

theorem attemptFile_ok {α : Type} {x : FileOp δ α} {file : File} {s : Terminal δ} {a : α}
    {t : OpenFile δ} (h : x ⟨s.dev, file⟩ = .ok a t) :
    attemptFile x file s = .ok (.ok a, t.file) { s with dev := t.dev } := by
  rw [attemptFile, h]

/-- The bytes that the display was given. -/
def shown (s : Terminal δ) : Bytes := s.display.flatMap Piece.bytes

theorem shown_write (pieces : List Piece) (s : Terminal δ) :
    ∃ t, write pieces s = .ok () t ∧ t.dev = s.dev ∧
      shown t = shown s ++ pieces.flatMap Piece.bytes :=
  ⟨_, rfl, rfl, flatMap_append⟩

/-- `core::str::from_utf8(bytes).unwrap_or(other)`. -/
def utf8Or (other : String) (bytes : Bytes) : Bytes :=
  if validUtf8 bytes then bytes else textBytes other

end Model

section Delivery

variable {δ : Type} [BlockDevice δ]

/-- `At s ahead` says that `ahead` are the bytes of `content` in front of the handle: they are read
in order, and a seek to 0 goes back to the first one. -/
structure Delivers (vol : Option FatVolume) (content : Bytes)
    (At : OpenFile δ → Bytes → Prop) : Prop where
  read : ∀ s ahead len, At s ahead →
    ∃ s', fRead vol len s = .ok (ahead.take len) s' ∧ At s' (ahead.drop len)
  rewind : ∀ s ahead, At s ahead → ∃ s', fLseek vol 0 s = .ok () s' ∧ At s' content

variable {vol : Option FatVolume} {content ahead : Bytes}
  {At : OpenFile δ → Bytes → Prop} {file : File} {s : Terminal δ}

theorem Delivers.attemptRead (h : Delivers vol content At) (hat : At ⟨s.dev, file⟩ ahead)
    (len : Nat) :
    ∃ t file', attemptFile (fRead vol len) file s = .ok (.ok (ahead.take len), file') t ∧
      At ⟨t.dev, file'⟩ (ahead.drop len) ∧ t.display = s.display := by
  obtain ⟨s', hrun, hat'⟩ := h.read _ _ len hat
  exact ⟨{ s with dev := s'.dev }, s'.file, attemptFile_ok hrun, hat', rfl⟩

theorem Delivers.attemptRewind (h : Delivers vol content At) (hat : At ⟨s.dev, file⟩ ahead) :
    ∃ t file', attemptFile (fLseek vol 0) file s = .ok (.ok (), file') t ∧
      At ⟨t.dev, file'⟩ content ∧ t.display = s.display := by
  obtain ⟨s', hrun, hat'⟩ := h.rewind _ _ hat
  exact ⟨{ s with dev := s'.dev }, s'.file, attemptFile_ok hrun, hat', rfl⟩

end Delivery

section Seats

variable {vol : FatVolume} {img : Image} {l : List Nat} {size : Nat}

/-- The handle is seated in a file of `size` bytes, and `ahead` are the bytes from its position. -/
structure SeatedAt (vol : FatVolume) (img : Image) (l : List Nat) (size : Nat)
    (s : OpenFile Disk) (ahead : Bytes) : Prop where
  view : Fat32.view vol s.dev = img
  seated : Seated vol img s.file l
  flags : s.file.flags &&& FA_READ ≠ 0
  holds : s.file.size = size
  ahead : ahead = fileBytes vol img l s.file.position (size - s.file.position)

theorem fileBytes_take (pos n len : Nat) :
    (fileBytes vol img l pos n).take len = fileBytes vol img l pos (min len n) := by
  simp [fileBytes, ← map_take, take_range]

theorem fileBytes_drop (pos n len : Nat) :
    (fileBytes vol img l pos n).drop len = fileBytes vol img l (pos + min len n) (n - len) := by
  rcases Nat.le_total len n with hle | hle
  · have hsplit : fileBytes vol img l pos len ++ _ = _ := fileBytes_append pos len (n - len)
    rw [Nat.add_sub_cancel' hle] at hsplit
    rw [Nat.min_eq_left hle, ← hsplit, drop_left' (fileBytes_length pos len)]
  · rw [drop_of_length_le (by rwa [fileBytes_length]), Nat.sub_eq_zero_of_le hle]
    rfl

/-- **A seated handle delivers the bytes of its file.** -/
theorem seated_delivers (hg : Geometry vol) :
    Delivers (some vol) (fileBytes vol img l 0 size) (SeatedAt vol img l size) where
  read := by
    rintro s ahead len ⟨hview, hseat, hflags, hsize, rfl⟩
    obtain ⟨bytes, s', hrun, hdev, hseat', hsame, hpos, hbytes⟩ :=
      (fRead_seated hg hview hseat hflags len).ok
    refine ⟨s', ?_, hdev ▸ hview, hseat', hsame.flags ▸ hflags, hsame.size.trans hsize, ?_⟩
    · rw [hrun, hbytes, fileBytes_take, hsize]
    · rw [fileBytes_drop, hpos, hsize]
      congr 1
      omega
  rewind := by
    rintro s ahead ⟨hview, hseat, hflags, hsize, rfl⟩
    have hinside : (0 : Nat) = s.file.position ∨ 0 < l.length * vol.clusterSize := by
      have hcovers := hseat.covers
      have hle := hseat.inside
      omega
    obtain ⟨s', hrun, hdev, hseat', hsame, hpos⟩ :=
      fLseek_seated hg hview hseat (Nat.zero_le _) hinside
    refine ⟨s', hrun, hdev ▸ hview, hseat', hsame.flags ▸ hflags, hsame.size.trans hsize, ?_⟩
    rw [hpos, Nat.sub_zero]

end Seats

/-! ## A volume with one file -/

/-- A root directory with the file `F`, which has the clusters 3 and 4. -/
def fileDisk (content : Bytes) : Disk :=
  diskOf [0x0FFFFFF8, 0x0FFFFFFF, 0x0FFFFFFF, 4, 0x0FFFFFFF]
    [fileSlot [0x46] 3 content.length, content.take 512, content.drop 512]

abbrev fileImage (content : Bytes) : Image := view tinyVol (fileDisk content)

/-- The handle on `F`, for reading. -/
def fileHandle (content : Bytes) : File :=
  oldFile FA_READ (2, 0) ((fileImage content).slot (2, 0))

/-- The parts of the volume are where they should be: a matter of evaluation for a content that
fits. -/
def Placed (content : Bytes) : Prop :=
  END_MARK ≤ (fileImage content).next 2 ∧ (fileImage content).next 3 = 4 ∧
    END_MARK ≤ (fileImage content).next 4 ∧
    scanDir (fileImage content) [0x46] (tinyVol.dirSlots [2]) = some (some (2, 0)) ∧
    attrOf ((fileImage content).slot (2, 0)) &&& 0x10 = 0 ∧
    fileHandle content = ⟨content.length, 0, 3, 3, 0, 0, FA_READ, 2, 0, false, .ok⟩ ∧
    content.length ≤ 1024
  deriving Decidable

section Sample

variable {content : Bytes}

/-- A byte of a cluster. -/
theorem fileImage_data {c o : Nat} (hc : tinyVol.Valid c) (ho : o < 512) :
    (fileImage content).data c o = (fileDisk content c).buf o := by
  have hlba : tinyVol.dataRegionLba + (c - 2) * tinyVol.sectorsPerCluster + o / 512 = c := by
    have htwo : 2 ≤ c := hc.1
    simp only [tinyVol]
    omega
  change (if _ then clusterByte tinyVol (fileDisk content) c o else 0) = _
  rw [if_pos ⟨hc, ho⟩, clusterByte, hlba, Nat.mod_eq_of_lt ho]

/-- The bytes of the two clusters. -/
theorem fileDisk_bytes (hsize : content.length ≤ 1024) :
    fileBytes tinyVol (fileImage content) [3, 4] 0 content.length = content := by
  have hcluster : tinyVol.clusterSize = 512 := rfl
  apply ext_getElem (fileBytes_length 0 _)
  intro i _ hi
  simp only [fileBytes, getElem_map, getElem_range, Nat.zero_add, fileByte, hcluster]
  have hthree : fileDisk content 3 = sectorOf (content.take 512) := rfl
  have hfour : fileDisk content 4 = sectorOf (content.drop 512) := rfl
  rcases Nat.lt_or_ge i 512 with h | h
  · have hfirst : [3, 4].getD (i / 512) 0 = 3 ∧ i % 512 = i := by
      rw [Nat.div_eq_of_lt h, Nat.mod_eq_of_lt h]
      exact ⟨rfl, rfl⟩
    rw [hfirst.1, hfirst.2, fileImage_data (by decide) h, hthree, sectorOf, Sector.buf_ofBuf _ h]
    simp [h, hi]
  · have hsub : i - 512 < 512 := by omega
    have hsecond : [3, 4].getD (i / 512) 0 = 4 ∧ i % 512 = i - 512 := by
      have hdiv : i / 512 = 1 := by omega
      rw [hdiv]
      exact ⟨rfl, by omega⟩
    rw [hsecond.1, hsecond.2, fileImage_data (by decide) hsub, hfour, sectorOf,
      Sector.buf_ofBuf _ hsub]
    simp [Nat.add_sub_cancel' h, hi]

variable (h : Placed content)
include h

theorem Placed.find : tinyVol.findEntryInDir 2 [0x46] (fileDisk content) =
      .ok (some (2, 0)) (fileDisk content) := by
  have hroot : (fileImage content).Chain tinyVol 2 [2] := .last (by decide) h.1
  rw [findEntryInDir_eq tiny_geometry rfl hroot, h.2.2.2.1]
  rfl

theorem Placed.stat : ∃ info, fStat (some tinyVol) [0x46] (fileDisk content) =
      .ok info (fileDisk content) ∧ info.attributes &&& 0x10 = 0 := by
  have hpath : resolvePath tinyVol [0x46] (fileDisk content) =
      .ok (2, [0x46]) (fileDisk content) := rfl
  have hentry := readEntryData_shows tiny_geometry (rfl : _ = fileImage content)
    (show tinyVol.Valid 2 by decide) 0
  refine ⟨⟨FatVolume.sizeOf ((fileImage content).slot (2, 0)),
    attrOf ((fileImage content).slot (2, 0)), startOf ((fileImage content).slot (2, 0)),
    Buf.le16 ((fileImage content).slot (2, 0)) 0x16,
    Buf.le16 ((fileImage content).slot (2, 0)) 0x18⟩, ?_, h.2.2.2.2.1⟩
  rw [fStat, withVol, Op.bind_ok hpath]
  simp only [if_neg (cons_ne_nil _ _)]
  rw [withEntry, Op.bind_ok h.find]
  simp only
  rw [statAt, Op.bind_ok hentry, Op.pure_run]
  rfl

theorem Placed.opens : fOpen (some tinyVol) [0x46] FA_READ (fileDisk content) =
      .ok (fileHandle content) (fileDisk content) :=
  fOpen_found tiny_geometry rfl rfl h.find (by decide) (by decide) (by decide)

/-- The handle delivers the content. -/
theorem Placed.delivers :
    Delivers (some tinyVol) content (SeatedAt tinyVol (fileImage content) [3, 4] content.length) ∧
      SeatedAt tinyVol (fileImage content) [3, 4] content.length
        ⟨fileDisk content, fileHandle content⟩ content := by
  obtain ⟨-, hfirst, hsecond, -, -, hhandle, hsize⟩ := h
  have hbytes := fileDisk_bytes hsize
  constructor
  · have hdelivers : Delivers (some tinyVol)
        (fileBytes tinyVol (fileImage content) [3, 4] 0 content.length)
        (SeatedAt tinyVol (fileImage content) [3, 4] content.length) :=
      seated_delivers tiny_geometry
    rwa [hbytes] at hdelivers
  · rw [hhandle]
    have hchain : (fileImage content).Chain tinyVol 3 [3, 4] :=
      .link (by decide) (by rw [hfirst]; exact .last (by decide) hsecond)
    have hflags : FA_READ &&& FA_READ ≠ 0 := by decide
    refine ⟨rfl, ⟨hchain, hsize, Nat.zero_le _, Nat.lt_of_le_of_lt hsize (by decide), ?_⟩, hflags,
      rfl, hbytes.symm⟩
    exact .inl ⟨0, rfl, by simp, Nat.one_pos, by simp⟩

end Sample

end PlanckOS.Applets
