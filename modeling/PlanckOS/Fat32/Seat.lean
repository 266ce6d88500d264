import PlanckOS.Fat32.Handle

/-!
# Handles whose cursor is at their position

The bytes of a file are those of its chain (`fileByte`). A handle on a file with the chain `l` is
`Seated` when its position is inside of the file, the chain covers the size, and the cursor is at
the position, or behind the last byte of the chain: `f_read` clears the current cluster there, and
`f_write` leaves the last one when it finds no free cluster.

`f_read`, `f_lseek` and `f_write` are described on such handles by their result, whether it is a
value or an error (`fRead_seated`, `fLseek_inside`, `fLseek_short`, `fWrite_returns`). `Wrote` is
what `f_write` makes of the file, the clusters it takes included. The induction over the rounds of
the loops goes along sectors: `Cursor.move` is the step along the chain and `Cursor.turn` one round
of `f_write`.
-/

set_option autoImplicit false

namespace PlanckOS.Fat32

open Lib.Fallible FatVolume List

variable {vol : FatVolume} {img img' : Image} {f f' f'' : File} {l l'' : List Nat}
  {a pos q m i x n c offset : Nat} {s : OpenFile Disk} {d : Disk}

/-! ## The cursor and the position -/

/-- The cursor of `f` is at position `pos` of the file, in the `q`-th cluster of the chain. -/
structure Cursor (vol : FatVolume) (l : List Nat) (f : File) (pos q : Nat) : Prop where
  cluster : l[q]? = some f.currentCluster
  place : pos = q * vol.clusterSize + f.sectorInCluster * 512 + f.byteInSector
  sector : f.sectorInCluster < vol.sectorsPerCluster
  byte : f.byteInSector < 512

/-- `g` is the handle `f` with its cursor moved on by `m` bytes inside of its sector. -/
structure Shifted (f g : File) (m : Nat) : Prop where
  current : g.currentCluster = f.currentCluster
  sector : g.sectorInCluster = f.sectorInCluster
  byte : g.byteInSector = f.byteInSector + m
  bound : f.byteInSector + m ≤ 512

section Moving

variable {g : File}

theorem Cursor.mem (h : Cursor vol l f pos q) : f.currentCluster ∈ l :=
  mem_of_getElem? h.cluster

/-- The bytes of a sector under the cursor lie in its cluster. -/
theorem Cursor.lt_clusterSize (h : Cursor vol l f pos q) {j : Nat} (hj : j < 512) :
    f.sectorInCluster * 512 + j < vol.clusterSize := by
  have := h.sector
  rw [clusterSize_eq]
  omega

/-- Where the last sector of a cluster is used up, the position is a multiple of its size. -/
theorem Cursor.block_end (h : Cursor vol l f pos q) (hm : f.byteInSector + m = 512)
    (hs : vol.sectorsPerCluster ≤ f.sectorInCluster + 1) : pos + m = (q + 1) * vol.clusterSize := by
  have hplace := h.place
  have hsec := h.sector
  have hcs := clusterSize_eq vol
  rw [Nat.succ_mul]
  omega

theorem Shifted.full (h : Shifted f g m) (hb : 512 ≤ g.byteInSector) :
    f.byteInSector + m = 512 := by
  have hbyte := h.byte
  have hbound := h.bound
  omega

section

variable (hg : Geometry vol) (hl : img.Chain vol a l) (h : Cursor vol l f pos q)
include hg hl h

/-- **The cursor goes on along the chain.** -/
theorem Cursor.move (hshift : Shifted f g m) (hmove : Move vol img g f') :
    ∃ q', Cursor vol l f' (pos + m) q' := by
  have hplace := h.place
  have hcluster := hshift.current ▸ h.cluster
  have hsec := hshift.sector
  cases hmove with
  | stay hb =>
    refine ⟨q, hcluster, ?_, hsec ▸ h.sector, hb⟩
    rw [hsec, hshift.byte]
    omega
  | sector hb hs =>
    have hfull := hshift.full hb
    refine ⟨q, hcluster, ?_, hs, Nat.zero_lt_succ _⟩
    simp only
    rw [hsec]
    omega
  | cluster hb hs hn =>
    refine ⟨q + 1, ?_, ?_, hg.spc_pos, Nat.zero_lt_succ _⟩
    · rcases hl.next_getElem? hcluster with hnext | ⟨-, hstop⟩
      · exact hnext
      · exact absurd hn (Nat.not_lt.mpr hstop)
    · simp only
      rw [h.block_end (hshift.full hb) (hsec ▸ hs)]
      omega

/-- Going on where the chain ends: the position is that of the end of the chain. -/
theorem Cursor.at_end (hm : f.byteInSector + m = 512)
    (hs : vol.sectorsPerCluster ≤ f.sectorInCluster + 1)
    (hn : END_MARK ≤ img.next f.currentCluster) :
    q + 1 = l.length ∧ pos + m = l.length * vol.clusterSize := by
  have hlast : q + 1 = l.length := by
    rcases hl.next_getElem? h.cluster with hnext | ⟨hlen, -⟩
    · -- a successor inside the chain is no end mark
      exact absurd hn (hg.not_stop _ (hl.valid_of_mem (mem_of_getElem? hnext)))
    · exact hlen
  exact ⟨hlast, hlast ▸ h.block_end hm hs⟩

end

theorem Move.content (h : Move vol img g f') :
    f'.size = g.size ∧ f'.position = g.position ∧ f'.flags = g.flags := by
  cases h <;> exact ⟨rfl, rfl, rfl⟩

theorem Turn.content (h : Turn vol img g img' f') :
    f'.size = g.size ∧ f'.position = g.position ∧ f'.flags = g.flags := by
  cases h with
  | move h => exact h.content
  | grow _ _ _ _ _ => exact ⟨rfl, rfl, rfl⟩

theorem advance_shifted (hm : f.byteInSector + m ≤ 512) : Shifted f (f.advance m) m :=
  ⟨rfl, rfl, by rw [File.advance]; simp only; omega, hm⟩

theorem wrote_shifted (hm : f.byteInSector + m ≤ 512) : Shifted f (f.wrote m) m :=
  ⟨rfl, rfl, by rw [File.wrote, File.advance]; simp only; omega, hm⟩

end Moving

/-! ## The bytes of a file -/

/-- Byte `i` of the file with the chain `l`. -/
def fileByte (vol : FatVolume) (img : Image) (l : List Nat) (i : Nat) : UInt8 :=
  img.data (l.getD (i / vol.clusterSize) 0) (i % vol.clusterSize)

/-- The `n` bytes from `pos` on. -/
def fileBytes (vol : FatVolume) (img : Image) (l : List Nat) (pos n : Nat) : Bytes :=
  (range n).map fun i => fileByte vol img l (pos + i)

section Bytes

variable {o : Nat}

@[simp] theorem fileBytes_length (pos n : Nat) : (fileBytes vol img l pos n).length = n := by
  rw [fileBytes, length_map, length_range]

theorem fileBytes_one (pos : Nat) : fileBytes vol img l pos 1 = [fileByte vol img l pos] := rfl

theorem fileBytes_append (pos m n : Nat) :
    fileBytes vol img l pos m ++ fileBytes vol img l (pos + m) n =
      fileBytes vol img l pos (m + n) := by
  rw [fileBytes, fileBytes, fileBytes, range_add, map_append, map_map]
  congr 1
  exact map_congr_left fun i _ => by rw [Function.comp_apply, Nat.add_assoc]

theorem fileByte_block (h : o < vol.clusterSize) :
    fileByte vol img l (q * vol.clusterSize + o) = img.data (l.getD q 0) o := by
  rw [fileByte, Nat.mul_comm, Nat.mul_add_div (by omega), Nat.div_eq_of_lt h, Nat.mul_add_mod,
    Nat.mod_eq_of_lt h, Nat.add_zero]

/-- The bytes from the cursor on, as far as its sector goes. -/
theorem Cursor.fileByte_eq (h : Cursor vol l f pos q) (hi : f.byteInSector + i < 512) :
    fileByte vol img l (pos + i) =
      img.data f.currentCluster (f.sectorInCluster * 512 + (f.byteInSector + i)) := by
  have hplace := h.place
  rw [show pos + i = q * vol.clusterSize +
    (f.sectorInCluster * 512 + (f.byteInSector + i)) by omega,
    fileByte_block (h.lt_clusterSize hi), getD_eq_getElem?_getD, h.cluster, Option.getD_some]

/-- The bytes of the sector under the cursor. -/
theorem Cursor.sectorBytes_eq (hg : Geometry vol) (hv : view vol s.dev = img)
    (h : Cursor vol l s.file pos q) (hvalid : vol.Valid s.file.currentCluster)
    (hm : s.file.byteInSector + m ≤ 512) :
    sectorBytes (s.dev (cursorLba vol s.file)) s.file.byteInSector m =
      fileBytes vol img l pos m := by
  rw [sectorBytes, fileBytes]
  refine map_congr_left fun i hi => ?_
  have hlt := mem_range.mp hi
  rw [h.fileByte_eq (by omega), cursorLba, sector_shows hg hv hvalid h.sector (by omega)]

end Bytes

/-! ## Seated handles -/

/-- The cursor is behind the last byte of the chain. -/
structure AtEnd (vol : FatVolume) (l : List Nat) (f : File) : Prop where
  position : f.position = l.length * vol.clusterSize
  sector : f.sectorInCluster = 0
  byte : f.byteInSector = 0
  current : f.currentCluster = 0 ∨ l[l.length - 1]? = some f.currentCluster

/-- The position is inside of the file, which the chain `l` covers, and the cursor is there. -/
structure Seated (vol : FatVolume) (img : Image) (f : File) (l : List Nat) : Prop where
  chain : img.Chain vol f.startCluster l
  covers : f.size ≤ l.length * vol.clusterSize
  inside : f.position ≤ f.size
  small : f.size < 2 ^ 32
  cursor : (∃ q, Cursor vol l f f.position q) ∨ AtEnd vol l f

/-- What reading and seeking leave alone. -/
structure SameText (f f' : File) : Prop extends SameFile f f' where
  size : f'.size = f.size
  flags : f'.flags = f.flags

theorem SameText.refl (f : File) : SameText f f := ⟨.refl f, rfl, rfl⟩

theorem SameText.trans (h : SameText f f') (h' : SameText f' f'') : SameText f f'' :=
  ⟨h.toSameFile.trans h'.toSameFile, h'.size.trans h.size, h'.flags.trans h.flags⟩

section Seats

theorem Seated.handle (hg : Geometry vol) (h : Seated vol img f l) : Handle vol img f l := by
  rcases h.cursor with ⟨q, hq⟩ | hend
  · exact ⟨⟨.inr h.chain, .inr hq.mem, hq.sector⟩, hq.byte⟩
  · refine ⟨⟨.inr h.chain, hend.current.imp_right mem_of_getElem?, ?_⟩, ?_⟩
    · rw [hend.sector]
      exact hg.spc_pos
    · rw [hend.byte]
      exact Nat.zero_lt_succ _

/-- In front of the end of the chain the cursor is in a cluster of the chain. -/
theorem Seated.cursor_of_lt (h : Seated vol img f l)
    (hlt : f.position < l.length * vol.clusterSize) : ∃ q, Cursor vol l f f.position q := by
  rcases h.cursor with hq | hend
  · exact hq
  · have := hend.position
    omega

theorem Seated.moved (h : Seated vol img f l) (hsame : SameText f f')
    (hinside : f'.position ≤ f.size)
    (hcursor : (∃ q, Cursor vol l f' f'.position q) ∨ AtEnd vol l f') : Seated vol img f' l where
  chain := hsame.start ▸ h.chain
  covers := hsame.size ▸ h.covers
  inside := hsame.size ▸ hinside
  small := hsame.size ▸ h.small
  cursor := hcursor

/-! ## Reading -/

variable (hg : Geometry vol)
include hg

/-- **A round of `f_read` on a seated handle.** -/
theorem Seated.readStep (hv : view vol s.dev = img) (h : Seated vol img s.file l) {toRead : Nat}
    {acc : Bytes} (hacc : acc.length < toRead)
    (hin : s.file.position + (toRead - acc.length) ≤ s.file.size) :
    (readStep (some vol) toRead acc s).Returns
      (fun r s' => s'.dev = s.dev ∧ Seated vol img s'.file l ∧ SameText s.file s'.file ∧
        ∃ m, 0 < m ∧ m ≤ toRead - acc.length ∧ s'.file.position = s.file.position + m ∧
          (r = .next (acc ++ fileBytes vol img l s.file.position m) ∨
            r = .done (acc ++ fileBytes vol img l s.file.position m) ∧ m = toRead - acc.length))
      fun _ _ => False := by
  have hcovers := h.covers
  have hsmall := h.small
  obtain ⟨q, hq⟩ := h.cursor_of_lt (by omega)
  have hbyte := hq.byte
  have hvalid := h.chain.valid_of_mem hq.mem
  -- the round takes the `m` bytes that are left of the sector or of the request
  obtain ⟨m, hmdef⟩ : ∃ m, m = s.file.room (toRead - acc.length) := ⟨_, rfl⟩
  have hm : s.file.byteInSector + m ≤ 512 := by rw [hmdef, File.room]; omega
  have hpos : 0 < m := by rw [hmdef, File.room]; omega
  have hle : m ≤ toRead - acc.length := hmdef ▸ min_le_right _ _
  have hadvance : (s.file.advance m).position = s.file.position + m := Nat.mod_eq_of_lt (by omega)
  have hadv : SameText s.file (s.file.advance m) := ⟨⟨rfl, rfl, rfl, rfl⟩, rfl, rfl⟩
  refine (readStep_returns hg hv (h.handle hg) hacc).mono ?_ fun _ _ h => h
  rw [← hmdef]
  rintro r s' ⟨hdev, bytes, rfl, hr⟩
  rw [hq.sectorBytes_eq hg hv hvalid hm] at hr
  rcases hr with ⟨hr, hmove⟩ | ⟨hr, hb, hs, hn, hfile⟩
  · obtain ⟨hsize, hposition, hflags⟩ := hmove.content
    have hsame : SameText s.file s'.file := hadv.trans ⟨hmove.sameFile, hsize, hflags⟩
    have hcur := hq.move hg h.chain (advance_shifted hm) hmove
    rw [← hadvance, ← hposition] at hcur
    refine ⟨hdev, h.moved hsame (by omega) (.inl hcur), hsame, m, hpos, hle, by omega, .inl hr⟩
  · -- the chain ends here, so the file does too
    obtain ⟨-, hend⟩ := hq.at_end hg h.chain ((advance_shifted hm).full hb) hs hn
    have hsame : SameText s.file s'.file := by
      rw [hfile]
      exact ⟨⟨rfl, rfl, rfl, rfl⟩, rfl, rfl⟩
    have hposition : s'.file.position = s.file.position + m := by
      rw [hfile]
      exact hadvance
    refine ⟨hdev, h.moved hsame (by omega) (.inr ⟨by omega, ?_, ?_, ?_⟩), hsame, m, hpos, hle,
      hposition, .inr ⟨hr, by omega⟩⟩
    · rw [hfile]
      rfl
    · rw [hfile]
      rfl
    · rw [hfile]
      exact .inl rfl

/-- **`f_read` returns the bytes at the position and moves behind them.** -/
theorem fRead_seated (hv : view vol s.dev = img) (h : Seated vol img s.file l)
    (hread : s.file.flags &&& FA_READ ≠ 0) (len : Nat) :
    (fRead (some vol) len s).Returns
      (fun bytes s' => s'.dev = s.dev ∧ Seated vol img s'.file l ∧ SameText s.file s'.file ∧
        s'.file.position = s.file.position + min len (s.file.size - s.file.position) ∧
        bytes = fileBytes vol img l s.file.position (min len (s.file.size - s.file.position)))
      fun _ _ => False := by
  have hsmall := h.small
  have hinside := h.inside
  rw [fRead]
  apply returns_bind_ok (getFile_run s)
  rw [if_neg hread]
  have hrem : (s.file.size + (2 ^ 32 - s.file.position)) % 2 ^ 32 =
      s.file.size - s.file.position := by omega
  simp only [hrem]
  have hle : s.file.position + min len (s.file.size - s.file.position) ≤ s.file.size := by omega
  generalize min len (s.file.size - s.file.position) = toRead at hle ⊢
  by_cases hzero : toRead = 0
  · rw [if_pos hzero, hzero]
    exact ⟨rfl, h, .refl _, rfl, rfl⟩
  rw [if_neg hzero]
  apply returns_bind_ok (onVol_pure _ _)
  -- so far the bytes up to the cursor were read
  apply returns_loopM (I := fun acc t => t.dev = s.dev ∧ Seated vol img t.file l ∧
    SameText s.file t.file ∧ acc.length ≤ toRead ∧ t.file.position = s.file.position + acc.length ∧
    acc = fileBytes vol img l s.file.position acc.length) fun acc => toRead - acc.length
  · rintro acc t ⟨hdev, ht, hsame, hlen, hposition, hacc⟩
    by_cases hmore : acc.length < toRead
    · refine (ht.readStep hg (hdev ▸ hv) hmore (by rw [hsame.size]; omega)).mono ?_ fun _ _ h => h
      rintro r t' ⟨hdev', ht', hsame', m, hpos, hm, hposition', hr⟩
      have hbytes : acc ++ fileBytes vol img l t.file.position m =
          fileBytes vol img l s.file.position (acc.length + m) := by
        rw [hposition, ← fileBytes_append, ← hacc]
      rw [hbytes] at hr
      rcases hr with rfl | ⟨rfl, hall⟩
      · simp only [fileBytes_length]
        exact ⟨⟨hdev'.trans hdev, ht', hsame.trans hsame', by omega, by omega, trivial⟩, by omega⟩
      · rw [show acc.length + m = toRead by omega]
        exact ⟨hdev'.trans hdev, ht', hsame.trans hsame', by omega, rfl⟩
    · rw [Fat32.readStep, if_neg hmore]
      obtain hall : acc.length = toRead := by omega
      exact ⟨hdev, ht, hsame, hall ▸ hposition, hall ▸ hacc⟩
  · exact ⟨rfl, h, .refl _, Nat.zero_le _, rfl, rfl⟩
  · have := loopBound_gt
    simp only [length_nil]
    omega

/-! ## Seeking -/

/-- Following the chain from position `i`. -/
theorem seekChain_ok (hv : view vol d = img) (hl : img.Chain vol a l)
    (hx : l[i]? = some x) (hc : l[i + n]? = some c) :
    seekChain vol x n d = .ok (some c) d := by
  induction n generalizing i x with
  | zero =>
    obtain rfl : x = c := Option.some.inj (hx.symm.trans hc)
    rfl
  | succ n ih =>
    have hlt : i + 1 + n < l.length := by
      have := (List.getElem?_eq_some_iff.mp hc).1
      omega
    rcases hl.next_getElem? hx with hnext | ⟨hlast, -⟩
    · have hvalid := hl.valid_of_mem (mem_of_getElem? hnext)
      rw [seekChain, Op.bind_ok (readFatEntry_shows hg hv
        (hl.valid_of_mem (mem_of_getElem? hx)).2), if_neg (hg.not_stop _ hvalid)]
      apply ih hnext
      rwa [show i + 1 + n = i + (n + 1) by omega]
    · omega

/-- Following the chain beyond its end. -/
theorem seekChain_short (hv : view vol d = img) (hl : img.Chain vol a l)
    (hx : l[i]? = some x) (hn : l.length ≤ i + n) :
    seekChain vol x n d = .ok none d := by
  induction n generalizing i x with
  | zero =>
    have := (List.getElem?_eq_some_iff.mp hx).1
    omega
  | succ n ih =>
    rw [seekChain, Op.bind_ok (readFatEntry_shows hg hv
      (hl.valid_of_mem (mem_of_getElem? hx)).2)]
    rcases hl.next_getElem? hx with hnext | ⟨-, hstop⟩
    · rw [if_neg (hg.not_stop _ (hl.valid_of_mem (mem_of_getElem? hnext)))]
      exact ih hnext (by omega)
    · rw [if_pos hstop]
      rfl

/-- `f_lseek` behind the end, without the right to write. -/
abbrev SeekDenied (f : File) (offset : Nat) : Prop := f.size < offset ∧ f.flags &&& FA_WRITE = 0

omit hg in
/-- `f_lseek` when the chain has the cluster of the offset. -/
theorem fLseek_jumps (hallowed : ¬ SeekDenied s.file offset) (hne : offset ≠ s.file.position)
    (hseek : seekChain vol s.file.startCluster (offset / vol.clusterSize) s.dev =
      .ok (some c) s.dev) :
    fLseek (some vol) offset s = .ok () { s with file := { s.file with
      currentCluster := c
      sectorInCluster := offset % vol.clusterSize / SECTOR_SIZE
      byteInSector := offset % vol.clusterSize % SECTOR_SIZE
      position := offset } } := by
  rw [fLseek, Op.bind_ok (getFile_run s), if_neg hallowed, if_neg hne, Op.bind_ok (onVol_pure _ _),
    Op.bind_ok (onVol_ok hseek)]
  rfl

/-- **`f_lseek` to a byte of the chain.** -/
theorem fLseek_inside (hv : view vol s.dev = img) (hl : img.Chain vol s.file.startCluster l)
    (hallowed : ¬ SeekDenied s.file offset)
    (hne : offset ≠ s.file.position) (hoff : offset < l.length * vol.clusterSize) :
    ∃ s', fLseek (some vol) offset s = .ok () s' ∧ s'.dev = s.dev ∧
      s'.file.position = offset ∧ SameText s.file s'.file ∧ ∃ q, Cursor vol l s'.file offset q := by
  have hspc := hg.spc_pos
  have hcs := clusterSize_eq vol
  have hdiv := Nat.div_add_mod offset vol.clusterSize
  have hmod : offset % vol.clusterSize < vol.clusterSize := Nat.mod_lt _ (by omega)
  have hidx : offset / vol.clusterSize < l.length :=
    Nat.div_lt_of_lt_mul (by rwa [Nat.mul_comm])
  have hclu := getElem?_eq_getElem hidx
  have hclu' : l[0 + offset / vol.clusterSize]? = some l[offset / vol.clusterSize] := by
    rwa [Nat.zero_add]
  have hrun := fLseek_jumps hallowed hne (seekChain_ok hg hv hl hl.getElem?_zero hclu')
  refine ⟨_, hrun, rfl, rfl, ⟨⟨rfl, rfl, rfl, rfl⟩, rfl, rfl⟩, offset / vol.clusterSize,
    hclu, ?_, ?_, ?_⟩
  · rw [Nat.mul_comm vol.clusterSize] at hdiv
    simp only [SECTOR_SIZE]
    omega
  · simp only [SECTOR_SIZE]
    omega
  · exact Nat.mod_lt _ (by decide)

omit hg in
/-- **`f_lseek` when the chain ends early** leaves the number of the cluster as the position. -/
theorem fLseek_short (hallowed : ¬ SeekDenied s.file offset) (hne : offset ≠ s.file.position)
    (hshort : seekChain vol s.file.startCluster (offset / vol.clusterSize) s.dev =
      .ok none s.dev) :
    fLseek (some vol) offset s = .ok () { s with file := { s.file with
      currentCluster := 0
      sectorInCluster := 0
      byteInSector := 0
      position := min (offset / vol.clusterSize) (2 ^ 32 - 1) } } := by
  rw [fLseek, Op.bind_ok (getFile_run s), if_neg hallowed, if_neg hne, Op.bind_ok (onVol_pure _ _),
    Op.bind_ok (onVol_ok hshort)]
  rfl

omit hg in
theorem fLseek_same (hallowed : ¬ SeekDenied s.file offset)
    (heq : offset = s.file.position) : fLseek (some vol) offset s = .ok () s := by
  rw [fLseek, Op.bind_ok (getFile_run s), if_neg hallowed, if_pos heq]
  rfl

/-- `f_lseek` inside of a file, not to the end of its chain, seats the handle there. -/
theorem fLseek_seated (hv : view vol s.dev = img) (h : Seated vol img s.file l)
    (hoff : offset ≤ s.file.size)
    (hin : offset = s.file.position ∨ offset < l.length * vol.clusterSize) :
    ∃ s', fLseek (some vol) offset s = .ok () s' ∧ s'.dev = s.dev ∧
      Seated vol img s'.file l ∧ SameText s.file s'.file ∧ s'.file.position = offset := by
  have hallowed : ¬ SeekDenied s.file offset := by omega
  by_cases heq : offset = s.file.position
  · exact ⟨s, fLseek_same hallowed heq, rfl, h, .refl _, heq.symm⟩
  · obtain ⟨s', hrun, hdev, hpos, hsame, hcur⟩ :=
      fLseek_inside hg hv h.chain hallowed heq (hin.resolve_left heq)
    exact ⟨s', hrun, hdev, h.moved hsame (by omega) (.inl (by rwa [hpos])), hsame, hpos⟩

end Seats

/-! ## Writing -/

/-- What writing `bytes` at position `p` makes of the file with the chain `l`: the chain grows at
its end, by no more clusters than are needed and all of them free ones, and the other bytes stay. -/
structure Wrote (vol : FatVolume) (img img' : Image) (l l' : List Nat) (p : Nat)
    (bytes : Bytes) : Prop where
  keeps : l <+: l'
  confined : Confined img img' l l'
  tight : l' = l ∨ (l'.length - 1) * vol.clusterSize ≤ p + bytes.length
  new : ∀ i, p ≤ i → i < p + bytes.length → fileByte vol img' l' i = bytes.getD (i - p) 0
  old : ∀ i, i < l.length * vol.clusterSize → (i < p ∨ p + bytes.length ≤ i) →
    fileByte vol img' l' i = fileByte vol img l i
  free : ∀ x, img'.next x = 0 ↔ img.next x = 0 ∧ x ∉ l'

section Writing

variable {img'' : Image}
  {l' : List Nat} {p : Nat} {chunk bs cs bytes buf : Bytes}

theorem Wrote.nil (hl : img.Chain vol a l) (p : Nat) : Wrote vol img img l l p [] where
  keeps := prefix_refl l
  confined := .refl img l
  tight := .inl rfl
  new i h1 h2 := absurd h2 (by simp only [length_nil]; omega)
  old _ _ _ := rfl
  free x := ⟨fun h => ⟨h, fun hx => chain_next_ne_zero hl hx h⟩, fun h => h.1⟩

/-- Writing in pieces is writing at once. -/
theorem Wrote.trans (h : Wrote vol img img' l l' p bs)
    (h' : Wrote vol img' img'' l' l'' (p + bs.length) cs)
    (hroom : p + bs.length ≤ l'.length * vol.clusterSize) :
    Wrote vol img img'' l l'' p (bs ++ cs) where
  keeps := h.keeps.trans h'.keeps
  confined := h.confined.trans h'.confined
  tight := by
    rw [length_append]
    rcases h'.tight with rfl | ht
    · rcases h.tight with rfl | ht
      · exact .inl rfl
      · exact .inr (by omega)
    · exact .inr (by omega)
  new i h1 h2 := by
    rw [length_append] at h2
    by_cases hi : i < p + bs.length
    · rw [h'.old i (by omega) (.inl hi), h.new i h1 hi, getD_append _ _ _ _ (by omega)]
    · rw [h'.new i (by omega) (by omega), getD_append_right _ _ _ _ (by omega), Nat.sub_sub]
  old i hi hout := by
    rw [length_append] at hout
    have hlen := Nat.mul_le_mul_right vol.clusterSize h.keeps.length_le
    rw [h'.old i (by omega) (by omega), h.old i hi (by omega)]
  free x := by
    rw [h'.free, h.free, and_assoc]
    have hsub : x ∈ l' → x ∈ l'' := fun hx => h'.keeps.subset hx
    exact ⟨fun hx => ⟨hx.1, hx.2.2⟩, fun hx => ⟨hx.1, fun hl => hx.2 (hsub hl), hx.2⟩⟩

section

variable (hg : Geometry vol) (hl : img.Chain vol a l) (hq : Cursor vol l f pos q)
  (hm : f.byteInSector + chunk.length ≤ 512)
include hg hl hq hm

/-- The bytes of the file after bytes of the sector under the cursor were written. -/
theorem Cursor.fileByte_store (hi : i < l.length * vol.clusterSize) :
    fileByte vol (img.storeData f.currentCluster (f.sectorInCluster * 512 + f.byteInSector) chunk)
      l i = if pos ≤ i ∧ i < pos + chunk.length then chunk.getD (i - pos) 0
        else fileByte vol img l i := by
  have hplace := hq.place
  have hcs : 0 < vol.clusterSize := Nat.pos_of_ne_zero fun h0 => by rw [h0] at hi; omega
  obtain ⟨r, o, ho, rfl⟩ : ∃ r o, o < vol.clusterSize ∧ i = r * vol.clusterSize + o :=
    ⟨i / vol.clusterSize, i % vol.clusterSize, Nat.mod_lt _ hcs, by
      rw [Nat.mul_comm, Nat.div_add_mod]⟩
  have hr : r < l.length := by
    by_contra hge
    have := Nat.mul_le_mul_right vol.clusterSize (Nat.not_lt.mp hge)
    omega
  rw [fileByte_block ho, fileByte_block ho, getD_eq_getElem _ _ hr, Image.storeData]
  by_cases hin : pos ≤ r * vol.clusterSize + o ∧ r * vol.clusterSize + o < pos + chunk.length
  · -- a written byte: it is in the cluster of the cursor
    rw [if_pos hin]
    obtain ⟨hlow, hhigh⟩ := hin
    have hoff : f.byteInSector + (r * vol.clusterSize + o - pos) < 512 := by omega
    obtain ⟨rfl, hoeq⟩ := table_sector_inj ho (hq.lt_clusterSize hoff)
      (show r * vol.clusterSize + o = q * vol.clusterSize + (f.sectorInCluster * 512 +
        (f.byteInSector + (r * vol.clusterSize + o - pos))) by omega)
    have hcur : l[r] = f.currentCluster := by
      have := hq.cluster
      rw [getElem?_eq_getElem hr] at this
      exact Option.some.inj this
    rw [hcur, Image.setData_self, Buf.store, if_pos (by omega)]
    congr 1
    omega
  · rw [if_neg hin]
    by_cases hc : l[r] = f.currentCluster
    · -- no cluster is twice in the chain, so this is the cluster of the cursor
      obtain rfl : r = q := (getElem?_inj hr (hl.nodup hg.not_stop)).mp
        (by rw [getElem?_eq_getElem hr, hc, hq.cluster])
      rw [hc, Image.setData_self, Buf.store, if_neg (by omega)]
    · rw [Image.setData_ne _ hc]

omit hg hl hq hm in
theorem Image.storeData_next (img : Image) (c off : Nat) (bytes : Bytes) :
    (img.storeData c off bytes).next = img.next := rfl

/-- Writing inside of the chain. -/
theorem Cursor.wrote : Wrote vol img
      (img.storeData f.currentCluster (f.sectorInCluster * 512 + f.byteInSector) chunk) l l pos
      chunk where
  keeps := prefix_refl l
  confined := Confined.setData hq.mem _
  tight := .inl rfl
  new i h1 h2 := by
    have hplace := hq.place
    have hidx : q + 1 ≤ l.length := (List.getElem?_eq_some_iff.mp hq.cluster).1
    have hblock := Nat.mul_le_mul_right vol.clusterSize hidx
    have hsec := hq.sector
    have hcs := clusterSize_eq vol
    rw [Nat.succ_mul] at hblock
    rw [hq.fileByte_store hg hl hm (by omega), if_pos ⟨h1, h2⟩]
  old i hi hout := by rw [hq.fileByte_store hg hl hm hi, if_neg (by omega)]
  free x := by
    rw [Image.storeData_next]
    exact ⟨fun h => ⟨h, fun hx => chain_next_ne_zero hl hx h⟩, fun h => h.1⟩

end

/-- Linking a free cluster behind the end of the chain, when the position is there. -/
theorem wrote_link (hg : Geometry vol) (hl : img.Chain vol a l) {t new : Nat} (ht : t ∈ l)
    (hend : END_MARK ≤ img.next t) (hv : vol.Valid new) (hfree : img.next new = 0)
    (hp : p = l.length * vol.clusterSize) : Wrote vol img (img.link t new) l (l ++ [new]) p [] where
  keeps := prefix_append l [new]
  confined := Confined.link ht hfree
  tight := .inr (by
    rw [length_append, length_singleton, Nat.add_sub_cancel]
    omega)
  new i h1 h2 := absurd h2 (by simp only [length_nil]; omega)
  old i hi _ := by
    have hcs : 0 < vol.clusterSize := Nat.pos_of_ne_zero fun h0 => by rw [h0] at hi; omega
    have hr : i / vol.clusterSize < l.length :=
      Nat.div_lt_of_lt_mul (by rwa [Nat.mul_comm])
    rw [fileByte, fileByte, getD_append _ _ _ _ hr]
    rfl
  free x := by
    have hlt := hg.lt_end hv
    have hv2 := hv.1
    have hnew : new ∉ l := fun h => chain_next_ne_zero hl h hfree
    rw [END_MARK] at hlt
    rw [mem_append, mem_singleton, not_or, Image.link]
    by_cases hxt : x = t
    · subst hxt
      rw [Image.next_setEntry_self]
      exact iff_of_false (by omega) fun h => h.2.1 ht
    rw [Image.next_setEntry_ne _ hxt]
    by_cases hxn : x = new
    · subst hxn
      have := img.mark_next_self x
      rw [END_MARK] at this
      exact iff_of_false (by omega) fun h => h.2.2 rfl
    rw [Image.mark, Image.next_setEntry_ne _ hxn]
    exact ⟨fun h => ⟨h, fun hx => chain_next_ne_zero hl hx h, hxn⟩, fun h => h.1⟩

/-! ### Rounds of `f_write` -/

/-- From the handle `f` with the chain `l` to the handle `f'` with the chain `l'`, after `bytes`
were written from byte `p` of the chain on. The position and the size are 32-bit counters. -/
structure Advanced (vol : FatVolume) (img : Image) (l : List Nat) (f : File) (p : Nat)
    (bytes : Bytes) (img' : Image) (l' : List Nat) (f' : File) : Prop where
  wrote : Wrote vol img img' l l' p bytes
  chain : img'.Chain vol f'.startCluster l'
  position : f'.position = (f.position + bytes.length) % 2 ^ 32
  low : f.size ≤ f'.size
  high : f'.size ≤ max f.size (f.position + bytes.length)
  small : f.size < 2 ^ 32 → f'.size < 2 ^ 32
  reached : f.position ≤ f.size → f'.position ≤ f'.size
  flags : f'.flags = f.flags
  dirSector : f'.dirSector = f.dirSector
  dirOffset : f'.dirOffset = f.dirOffset

/-- The handle at the end of a chain that cannot grow, with the cursor at the start of the last
cluster. -/
structure Stuck (vol : FatVolume) (img : Image) (l : List Nat) (f : File) : Prop where
  current : l[l.length - 1]? = some f.currentCluster
  sector : f.sectorInCluster = 0
  byte : f.byteInSector = 0
  full : ∀ x, vol.Valid x → img.next x ≠ 0

theorem Advanced.refl (hl : img.Chain vol f.startCluster l) (hpos : f.position < 2 ^ 32) (p : Nat) :
    Advanced vol img l f p [] img l f where
  wrote := .nil hl _
  chain := hl
  position := (Nat.mod_eq_of_lt hpos).symm
  low := le_rfl
  high := le_max_left _ _
  small h := h
  reached h := h
  flags := rfl
  dirSector := rfl
  dirOffset := rfl

theorem Advanced.trans (h : Advanced vol img l f p bs img' l' f')
    (h' : Advanced vol img' l' f' (p + bs.length) cs img'' l'' f'')
    (hroom : p + bs.length ≤ l'.length * vol.clusterSize) :
    Advanced vol img l f p (bs ++ cs) img'' l'' f'' where
  wrote := h.wrote.trans h'.wrote hroom
  chain := h'.chain
  position := by
    rw [h'.position, h.position, length_append]
    omega
  low := h.low.trans h'.low
  high := by
    have hpos := h.position
    have hhigh := h.high
    have hhigh' := h'.high
    rw [length_append]
    omega
  small hs := h'.small (h.small hs)
  reached hp := h'.reached (h.reached hp)
  flags := h'.flags.trans h.flags
  dirSector := h'.dirSector.trans h.dirSector
  dirOffset := h'.dirOffset.trans h.dirOffset

/-- A write below 4 GiB moves the position and the size as far as it goes. -/
theorem Advanced.numbers (h : Advanced vol img l f p bytes img' l' f')
    (hinside : f.position ≤ f.size) (hsmall : f.position + bytes.length < 2 ^ 32) :
    f'.position = f.position + bytes.length ∧ f'.size = max f.size (f.position + bytes.length) := by
  have hposition := h.position
  have hlow := h.low
  have hhigh := h.high
  have hreached := h.reached hinside
  omega

/-- A cursor in a chain is in front of its end. -/
theorem Cursor.lt_end (h : Cursor vol l f pos q) : pos < l.length * vol.clusterSize := by
  have hplace := h.place
  have hsector := h.lt_clusterSize h.byte
  have hidx : q + 1 ≤ l.length := (List.getElem?_eq_some_iff.mp h.cluster).1
  have hblock := Nat.mul_le_mul_right vol.clusterSize hidx
  rw [Nat.succ_mul] at hblock
  omega

/-- The counters after a round of `f_write`. -/
theorem wrote_advanced (hwrote : Wrote vol img img' l l' p chunk)
    (hchain : img'.Chain vol f'.startCluster l')
    (hposition : f'.position = (f.wrote chunk.length).position)
    (hsize : f'.size = (f.wrote chunk.length).size) (hflags : f'.flags = f.flags)
    (hsector : f'.dirSector = f.dirSector) (hoffset : f'.dirOffset = f.dirOffset) :
    Advanced vol img l f p chunk img' l' f' := by
  have hpos : f'.position = (f.position + chunk.length) % 2 ^ 32 := hposition
  have hsize' : f'.size = if f.size < f'.position then f'.position else f.size := by
    rw [hsize, hposition]
    rfl
  refine ⟨hwrote, hchain, hpos, ?_, ?_, fun h => ?_, fun h => ?_, hflags, hsector, hoffset⟩ <;>
    split_ifs at hsize' <;> omega

section

variable (hg : Geometry vol) (hl : img.Chain vol f.startCluster l) (hq : Cursor vol l f p q)
include hg hl hq

/-- **One round of `f_write`.** -/
theorem Cursor.turn (hchunk : chunk.length = m) (hm : f.byteInSector + m ≤ 512)
    (hturn : Turn vol (img.storeData f.currentCluster
      (f.sectorInCluster * 512 + f.byteInSector) chunk) (f.wrote m) img' f') :
    ∃ l', Advanced vol img l f p chunk img' l' f' ∧ ∃ q', Cursor vol l' f' (p + m) q' := by
  subst hchunk
  obtain ⟨hsize, hposition, hflags⟩ := hturn.content
  have hchain : (img.storeData f.currentCluster
      (f.sectorInCluster * 512 + f.byteInSector) chunk).Chain vol f.startCluster l := hl
  have hwrote := hq.wrote hg hl hm
  cases hturn with
  | move hmove =>
    have hsame := hmove.sameFile
    exact ⟨l, wrote_advanced hwrote (hsame.start ▸ hchain) hposition hsize hflags hsame.dirSector
      hsame.dirOffset, hq.move hg hchain (wrote_shifted hm) hmove⟩
  | @grow new hb hs hn hv hfree =>
    obtain ⟨hlast, hend⟩ := hq.at_end hg hchain ((wrote_shifted hm).full hb) hs hn
    have hlink := chain_link hg hchain hq.mem hn hv hfree
    have hnew : (l ++ [new])[l.length]? = some new := getElem?_concat_length
    have hwrote' := hwrote.trans (wrote_link hg hchain hq.mem hn hv hfree hend) hend.le
    rw [append_nil] at hwrote'
    refine ⟨l ++ [new], wrote_advanced hwrote' hlink hposition hsize hflags rfl rfl, l.length, hnew,
      ?_, hg.spc_pos, Nat.zero_lt_succ _⟩
    simp only
    omega

/-- **A round of `f_write` that finds no cluster.** -/
theorem Cursor.stuck (hchunk : chunk.length = m) (hm : f.byteInSector + m ≤ 512)
    (hb : 512 ≤ (f.wrote m).byteInSector) (hs : vol.sectorsPerCluster ≤ f.sectorInCluster + 1)
    (hn : END_MARK ≤ img.next f.currentCluster) (hfull : ∀ x, vol.Valid x → img.next x ≠ 0)
    {e : FError} (hfile : f' = { (f.wrote m).atEnd with error := e }) :
    Advanced vol img l f p chunk (img.storeData f.currentCluster
        (f.sectorInCluster * 512 + f.byteInSector) chunk) l f' ∧
      Stuck vol (img.storeData f.currentCluster
        (f.sectorInCluster * 512 + f.byteInSector) chunk) l f' ∧
      p + m = l.length * vol.clusterSize := by
  subst hchunk hfile
  obtain ⟨hlast, hend⟩ := hq.at_end hg hl ((wrote_shifted hm).full hb) hs hn
  have hcurrent : l[l.length - 1]? = some f.currentCluster := by
    rw [show l.length - 1 = q by omega]
    exact hq.cluster
  exact ⟨wrote_advanced (hq.wrote hg hl hm) hl rfl rfl rfl rfl rfl,
    ⟨hcurrent, rfl, rfl, hfull⟩, hend⟩

end

/-- Everything is written, and the handle is in front of the end of the chain. -/
def WroteAll (vol : FatVolume) (img : Image) (l : List Nat) (f : File) (p : Nat) (buf : Bytes)
    (s' : OpenFile Disk) : Prop :=
  ∃ img' l', Shows vol s'.dev img' ∧ Advanced vol img l f p buf img' l' s'.file ∧
    ∃ q', Cursor vol l' s'.file (p + buf.length) q'

/-- Some bytes are written, up to the end of the chain, and there is no free cluster. -/
def WrotePart (vol : FatVolume) (img : Image) (l : List Nat) (f : File) (p : Nat)
    (buf : Bytes) (s' : OpenFile Disk) : Prop :=
  ∃ n img' l', n ≤ buf.length ∧ Shows vol s'.dev img' ∧
    Advanced vol img l f p (buf.take n) img' l' s'.file ∧ Stuck vol img' l' s'.file ∧
    p + n = l'.length * vol.clusterSize

/-- **The loop of `f_write`**, with the cursor at byte `p` of the chain. -/
theorem writeLoop_returns (hg : Geometry vol) (hs : Shows vol s.dev img)
    (hl : img.Chain vol s.file.startCluster l) (hq : Cursor vol l s.file p q)
    (hpos : s.file.position < 2 ^ 32) (hbuf : buf.length < 2 ^ 64) :
    (Op.loopM (writeStep (some vol) buf) LOOP_BOUND 0 s).Returns
      (fun n s' => n = buf.length ∧ WroteAll vol img l s.file p buf s')
      fun _ s' => WrotePart vol img l s.file p buf s' := by
  -- after some rounds the first `n` bytes are written
  apply returns_loopM (I := fun n u => n ≤ buf.length ∧ ∃ img₁ l₁, Shows vol u.dev img₁ ∧
    Advanced vol img l s.file p (buf.take n) img₁ l₁ u.file ∧
    ∃ q₁, Cursor vol l₁ u.file (p + n) q₁) fun n => buf.length - n
  · rintro n u ⟨hn, img₁, l₁, hs₁, h₁, q₁, hq₁⟩
    have htake : (buf.take n).length = n := length_take_of_le hn
    by_cases hmore : n < buf.length
    · have hbyte := hq₁.byte
      have hend := hq₁.lt_end
      have hroom : u.file.room (buf.length - n) ≤ 512 - u.file.byteInSector := min_le_left _ _
      have hrest : u.file.room (buf.length - n) ≤ buf.length - n := min_le_right _ _
      have hsome : 0 < u.file.room (buf.length - n) := by rw [File.room]; omega
      have hchunk : ((buf.drop n).take (u.file.room (buf.length - n))).length =
          u.file.room (buf.length - n) := by
        rw [length_take, length_drop, min_eq_left hrest]
      have hcur : Cursor vol l₁ u.file (p + (buf.take n).length) q₁ := htake.symm ▸ hq₁
      have hh : Handle vol img₁ u.file l₁ :=
        ⟨⟨.inr h₁.chain, .inr hq₁.mem, hq₁.sector⟩, hq₁.byte⟩
      refine (writeStep_returns hg hs₁ hh hq₁.mem hmore).mono ?_ ?_
      · rintro r u' ⟨rfl, img₂, hs₂, hturn⟩
        obtain ⟨l₂, h₂, q₂, hq₂⟩ := hcur.turn hg h₁.chain hchunk (by omega) hturn
        have h₃ := h₁.trans h₂ (by omega)
        rw [← take_add] at h₃
        rw [htake, Nat.add_assoc] at hq₂
        exact ⟨⟨by omega, img₂, l₂, hs₂, h₃, q₂, hq₂⟩, by omega⟩
      · rintro e u' ⟨hs₂, hfile, hb, hsec, hend, hfull⟩
        obtain ⟨h₂, hstuck, hall⟩ := hcur.stuck hg h₁.chain hchunk (by omega) hb hsec hend hfull
          hfile
        have h₃ := h₁.trans h₂ (by omega)
        rw [← take_add] at h₃
        exact ⟨n + u.file.room (buf.length - n), _, l₁, by omega, hs₂, h₃, hstuck, by omega⟩
    · rw [writeStep, if_neg hmore]
      obtain rfl : n = buf.length := by omega
      rw [take_length] at h₁
      exact ⟨rfl, img₁, l₁, hs₁, h₁, q₁, hq₁⟩
  · exact ⟨Nat.zero_le _, img, l, hs, .refl hl hpos p, q, hq⟩
  · rw [LOOP_BOUND]
    omega

/-- `f_write` of nothing. -/
theorem fWrite_nil (hwrite : s.file.flags &&& FA_WRITE ≠ 0) : fWrite (some vol) [] s = .ok 0 s := by
  rw [fWrite, Op.bind_ok (getFile_run s), if_neg hwrite, if_pos rfl]
  rfl

/-- **`f_write` with the cursor in the chain.** -/
theorem fWrite_returns (hg : Geometry vol) (hs : Shows vol s.dev img)
    (hl : img.Chain vol s.file.startCluster l) (hq : Cursor vol l s.file p q)
    (hpos : s.file.position < 2 ^ 32) (hwrite : s.file.flags &&& FA_WRITE ≠ 0)
    (hbuf : buf.length < 2 ^ 64) : (fWrite (some vol) buf s).Returns
      (fun n s' => n = buf.length ∧ WroteAll vol img l s.file p buf s')
      fun _ s' => WrotePart vol img l s.file p buf s' := by
  by_cases hempty : buf = []
  · subst hempty
    exact returns_of_ok (fWrite_nil hwrite) ⟨rfl, img, l, hs, .refl hl hpos p, q, hq⟩
  have hne : s.file.currentCluster ≠ 0 := by
    have := (hl.valid_of_mem hq.mem).1
    omega
  rw [fWrite_loop hwrite hempty (ensureCluster_skip hne)]
  exact writeLoop_returns hg hs hl hq hpos hbuf

/-- The handle behind bytes that were written from the cursor on is seated. -/
theorem Advanced.seated (h : Advanced vol img l f f.position bytes img' l' f')
    (hseat : Seated vol img f l) (hsmall : f.position + bytes.length < 2 ^ 32)
    (hroom : f.position + bytes.length ≤ l'.length * vol.clusterSize)
    (hcursor : (∃ q, Cursor vol l' f' (f.position + bytes.length) q) ∨ AtEnd vol l' f') :
    Seated vol img' f' l' := by
  obtain ⟨hposition, hsize⟩ := h.numbers hseat.inside hsmall
  have hold := hseat.covers
  have hgrow := Nat.mul_le_mul_right vol.clusterSize h.wrote.keeps.length_le
  refine ⟨h.chain, by omega, h.reached hseat.inside, h.small hseat.small, ?_⟩
  rwa [← hposition] at hcursor

/-- **`f_write` on a seated handle in front of the end of its chain**, below 4 GiB. -/
theorem fWrite_seated (hg : Geometry vol) (hs : Shows vol s.dev img) (h : Seated vol img s.file l)
    (hwrite : s.file.flags &&& FA_WRITE ≠ 0) (hroom : s.file.position < l.length * vol.clusterSize)
    (hsmall : s.file.position + buf.length < 2 ^ 32) :
    (fWrite (some vol) buf s).Returns
      (fun n s' => n = buf.length ∧ ∃ img' l', Shows vol s'.dev img' ∧
        Advanced vol img l s.file s.file.position buf img' l' s'.file ∧
        Seated vol img' s'.file l' ∧ s'.file.position < l'.length * vol.clusterSize)
      (fun _ s' => ∃ n img' l', n ≤ buf.length ∧ Shows vol s'.dev img' ∧
        Advanced vol img l s.file s.file.position (buf.take n) img' l' s'.file ∧
        Seated vol img' s'.file l') := by
  obtain ⟨q, hq⟩ := h.cursor_of_lt hroom
  refine (fWrite_returns hg hs h.chain hq (by omega) hwrite (by omega)).mono ?_ ?_
  · rintro n s' ⟨rfl, img', l', hs', hadv, hcur⟩
    have hlt : s.file.position + buf.length < l'.length * vol.clusterSize :=
      hcur.elim fun _ => (·.lt_end)
    have hposition := (hadv.numbers h.inside hsmall).1
    exact ⟨rfl, img', l', hs', hadv, hadv.seated h hsmall hlt.le (.inl hcur), by omega⟩
  · rintro - s' ⟨n, img', l', hn, hs', hadv, hstuck, hend⟩
    have htake : (buf.take n).length = n := length_take_of_le hn
    have hposition := (hadv.numbers h.inside (by omega)).1
    exact ⟨n, img', l', hn, hs', hadv, hadv.seated h (by omega) (by omega)
      (.inr ⟨by omega, hstuck.sector, hstuck.byte, .inr hstuck.current⟩)⟩

end Writing

end PlanckOS.Fat32
