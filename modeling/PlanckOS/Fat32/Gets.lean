import PlanckOS.Fat32.ReadSafety

/-!
# Lines: `f_gets` of `src/hal/fat32.rs`

`f_gets` reads a line byte by byte with `f_read`, leaves out carriage returns and puts a zero byte
behind what it has read.

What it needs of `f_read` is that it reads in order (`ReadsInOrder`), which a handle does whose
cursor is in its place (`Seated.readsInOrder`). One call takes some of the bytes ahead and leaves
the others (`fGets_spec`), and calls until the result is 0 split all of them into lines: nothing is
lost but the carriage returns (`gets_splits`).
-/

set_option autoImplicit false

namespace PlanckOS.Fat32

open Lib.Fallible Lib.Loop List

variable {vol : Option FatVolume} {b : UInt8}

/-! ## `f_gets` -/

section Model

variable {δ : Type} [BlockDevice δ]

section

variable (vol : Option FatVolume)

/-- One round of `f_gets`: the number of bytes in the buffer, and the buffer. -/
def getsStep (max : Nat) (line : Nat × Bytes) :
    FileOp δ (Lib.Loop.Flow (Nat × Bytes) (Nat × Bytes)) :=
  let (i, buf) := line
  if i < max then do
    match ← fRead vol 1 with
    | [] => pure (.done (i, buf))
    | c :: _ =>
        -- `\r`
        if c = 0x0D then pure (.next (i, buf))
        -- `\n`
        else if c = 0x0A then pure (.done (i + 1, buf.set i c))
        else pure (.next (i + 1, buf.set i c))
  else pure (.done (i, buf))

/-- `f_gets`: the number of bytes read, and the buffer. `n - 1` wraps. -/
def fGets (buf : Bytes) (n : Nat) : FileOp δ (Nat × Bytes) := do
  let max := min ((n + (2 ^ 64 - 1)) % 2 ^ 64) (buf.length - 1)
  let (i, buf) ← Op.loopM (getsStep vol max) LOOP_BOUND (0, buf)
  pure (i, if i < buf.length then buf.set i 0 else buf)

/-- What a call of `f_gets` leaves: its result, the buffer and the file. -/
structure Line (δ : Type) where
  count : Nat
  buf : Bytes
  after : OpenFile δ

/-- The bytes that the call returned. -/
def Line.piece (line : Line δ) : Bytes := line.buf.take line.count

/-- One call of `f_gets` with the buffer of the last one. -/
def linesStep (n : Nat) (st : List (Line δ) × Bytes) :
    FileOp δ (Flow (List (Line δ) × Bytes) (List (Line δ))) := do
  let (count, buf) ← fGets vol st.2 n
  let after ← Op.get
  if count = 0 then pure (.done st.1) else pure (.next (st.1 ++ [⟨count, buf, after⟩], buf))

/-- Call `f_gets` until it returns 0. -/
def getLines (buf : Bytes) (n : Nat) : FileOp δ (List (Line δ)) :=
  Op.loopM (linesStep vol n) LOOP_BOUND ([], buf)

end

/-- `f_read` of one byte returns the bytes one after the other, and nothing behind the last one. -/
inductive ReadsInOrder (vol : Option FatVolume) : OpenFile δ → Bytes → Prop
  | ended {s : OpenFile δ} (h : fRead vol 1 s = .ok [] s) : ReadsInOrder vol s []
  | byte {s s' : OpenFile δ} {b : UInt8} {rest : Bytes} (h : fRead vol 1 s = .ok [b] s')
      (hrest : ReadsInOrder vol s' rest) : ReadsInOrder vol s (b :: rest)

end Model

/-! ## One call -/

/-- The bytes without carriage returns. -/
def withoutReturns (bytes : Bytes) : Bytes := bytes.filter fun b => b ≠ 0x0D

@[simp] theorem withoutReturns_append (xs ys : Bytes) :
    withoutReturns (xs ++ ys) = withoutReturns xs ++ withoutReturns ys := filter_append ..

section Calls

variable {δ : Type} [BlockDevice δ] {max n i j fuel : Nat}
  {buf buf' bytes piece : Bytes} {s s' : OpenFile δ}

/-- How the loop of `f_gets` ends that had `front` in the buffer and `bytes` ahead of it: it took
some of them, and it stopped early only behind a newline or at the end. -/
structure Taken (vol : Option FatVolume) (max : Nat) (front bytes piece : Bytes)
    (s : OpenFile δ) : Prop where
  splits : ∃ taken rest, bytes = taken ++ rest ∧ piece = front ++ withoutReturns taken ∧
    ReadsInOrder vol s rest ∧ (piece.length < max → piece.getLast? = some 0x0A ∨ rest = [])
  length_le : piece.length ≤ max
  newline_last : (0x0A : UInt8) ∉ piece.dropLast

/-- A byte that was skipped or kept goes to the front of what the rest of the loop takes. -/
theorem Taken.cons {front kept rest : Bytes} (hkept : kept = withoutReturns [b])
    (h : Taken vol max (front ++ kept) rest piece s) : Taken vol max front (b :: rest) piece s := by
  obtain ⟨⟨taken, left, hsplit, hpiece, hleft, hshort⟩, hle, hlast⟩ := h
  refine ⟨⟨b :: taken, left, ?_, ?_, hleft, hshort⟩, hle, hlast⟩
  · rw [hsplit, cons_append]
  · rw [hpiece, hkept, append_assoc, ← withoutReturns_append, singleton_append]

theorem getsStep_full (h : max ≤ i) : getsStep vol max (i, buf) s = .ok (.done (i, buf)) s := by
  rw [getsStep, if_neg (by omega)]
  rfl

theorem getsStep_end (hlt : i < max) (h : fRead vol 1 s = .ok [] s') :
    getsStep vol max (i, buf) s = .ok (.done (i, buf)) s' := by
  rw [getsStep, if_pos hlt]
  exact Op.bind_ok h

theorem getsStep_byte (hlt : i < max) (h : fRead vol 1 s = .ok [b] s') :
    getsStep vol max (i, buf) s =
      .ok (if b = 0x0D then .next (i, buf)
        else if b = 0x0A then .done (i + 1, buf.set i b)
        else .next (i + 1, buf.set i b)) s' := by
  rw [getsStep, if_pos hlt]
  refine (Op.bind_ok h).trans ?_
  simp only
  split_ifs <;> rfl

/-- The bytes of the buffer with one more. -/
theorem take_set_succ (hi : i < buf.length) (c : UInt8) :
    (buf.set i c).take (i + 1) = buf.take i ++ [c] := by
  rw [take_succ_eq_append_getElem (by rwa [length_set]), getElem_set_self, take_set_of_le le_rfl]

/-- **The loop of `f_gets`.** -/
theorem getsLoop_spec (hs : ReadsInOrder vol s bytes) (hfuel : bytes.length < fuel)
    (hi : i ≤ max) (hmax : max < buf.length) (hfront : (0x0A : UInt8) ∉ buf.take i) :
    ∃ j buf' s', Op.loopM (getsStep vol max) fuel (i, buf) s = .ok (j, buf') s' ∧
      buf'.length = buf.length ∧ j ≤ max ∧
      Taken vol max (buf.take i) bytes (buf'.take j) s' := by
  -- the induction is on the bytes ahead; every round but the last takes one of them
  induction hs generalizing i buf fuel with
  | @ended s h =>
    obtain ⟨fuel, rfl⟩ : ∃ m, fuel = m + 1 := ⟨fuel - 1, by omega⟩
    have hstop : Taken vol max (buf.take i) [] (buf.take i) s :=
      { splits := ⟨[], [], rfl, (append_nil _).symm, .ended h, fun _ => .inr rfl⟩
        length_le := by
          rw [length_take]
          omega
        newline_last := fun hmem => hfront (dropLast_subset _ hmem) }
    refine ⟨i, buf, s, ?_, rfl, hi, hstop⟩
    rcases Nat.lt_or_ge i max with hlt | hge
    · exact Op.loopM_done (getsStep_end hlt h)
    · exact Op.loopM_done (getsStep_full hge)
  | @byte s s' b rest h hrest ih =>
    obtain ⟨fuel, rfl⟩ : ∃ m, fuel = m + 1 := ⟨fuel - 1, by omega⟩
    rw [length_cons] at hfuel
    rcases Nat.lt_or_ge i max with hlt | hge
    · have hstep : getsStep vol max (i, buf) s = .ok _ s' := getsStep_byte hlt h
      have hlen : (buf.take i).length = i := length_take_of_le (by omega)
      have htake := take_set_succ (hlt.trans hmax) b
      rcases eq_or_ne b 0x0D with hcr | hcr
      · -- skipped
        obtain ⟨j, buf', t, hrun, hlength, hj, htaken⟩ :=
          ih (Nat.lt_of_succ_lt_succ hfuel) hi hmax hfront
        refine ⟨j, buf', t, ?_, hlength, hj, ?_⟩
        · rw [if_pos hcr] at hstep
          exact (Op.loopM_next hstep).trans hrun
        · rw [← append_nil (buf.take i)] at htaken
          exact htaken.cons (by rw [hcr]; rfl)
      have hkept : [b] = withoutReturns [b] := by
        rw [withoutReturns, filter_cons_of_pos (by simpa using hcr), filter_nil]
      rcases eq_or_ne b 0x0A with hnl | hnl
      · -- the last byte of the line
        refine ⟨i + 1, buf.set i b, s', ?_, length_set, hlt, ?_⟩
        · rw [if_neg hcr, if_pos hnl] at hstep
          exact Op.loopM_done hstep
        · rw [htake]
          refine Taken.cons hkept ⟨⟨[], rest, rfl, ?_, hrest, fun _ => .inl ?_⟩, ?_, ?_⟩
          · exact (append_nil _).symm
          · rw [getLast?_concat, hnl]
          · rw [length_append, hlen, length_singleton]
            exact hlt
          · rwa [dropLast_concat]
      · -- kept
        have hfront' : (0x0A : UInt8) ∉ (buf.set i b).take (i + 1) := by
          rw [htake, mem_append, mem_singleton]
          rintro (hmem | heq)
          · exact hfront hmem
          · exact hnl heq.symm
        obtain ⟨j, buf', t, hrun, hlength, hj, htaken⟩ :=
          ih (Nat.lt_of_succ_lt_succ hfuel) hlt (by rwa [length_set]) hfront'
        refine ⟨j, buf', t, ?_, hlength.trans length_set, hj, ?_⟩
        · rw [if_neg hcr, if_neg hnl] at hstep
          exact (Op.loopM_next hstep).trans hrun
        · rw [htake] at htaken
          exact htaken.cons hkept
    · -- the buffer is full
      have hfull : i = max := by omega
      refine ⟨i, buf, s, ?_, rfl, hi, ⟨⟨[], b :: rest, rfl, ?_, .byte h hrest, ?_⟩, ?_, ?_⟩⟩
      · exact Op.loopM_done (getsStep_full hge)
      · exact (append_nil _).symm
      · intro hshort
        rw [length_take_of_le (by omega)] at hshort
        omega
      · rw [length_take]
        omega
      · exact fun hmem => hfront (dropLast_subset _ hmem)

/-- **One call of `f_gets`** takes a piece of the bytes ahead; it returns 0 at the end only. -/
theorem fGets_spec (hs : ReadsInOrder vol s bytes) (hsize : bytes.length < 2 ^ 32) (hn : 2 ≤ n)
    (hn64 : n < 2 ^ 64) (hbuf : 2 ≤ buf.length) :
    ∃ line : Line δ, fGets vol buf n s = .ok (line.count, line.buf) line.after ∧
      line.buf.length = buf.length ∧ line.piece.length = line.count ∧
      line.buf[line.count]? = some 0 ∧
      Taken vol (min n buf.length - 1) [] bytes line.piece line.after := by
  have hmax : min ((n + (2 ^ 64 - 1)) % 2 ^ 64) (buf.length - 1) = min n buf.length - 1 := by
    have hwrap : (n + (2 ^ 64 - 1)) % 2 ^ 64 = n - 1 := by
      rw [show n + (2 ^ 64 - 1) = n - 1 + 2 ^ 64 by omega, Nat.add_mod_right,
        Nat.mod_eq_of_lt (by omega)]
    omega
  have hroom : min n buf.length - 1 < buf.length := by omega
  obtain ⟨j, buf', s', hrun, hlength, hj, htaken⟩ :=
    getsLoop_spec hs (hsize.trans loopBound_gt) (Nat.zero_le _) hroom not_mem_nil
  have hlt : j < buf'.length := by omega
  have hpiece : (buf'.set j 0).take j = buf'.take j := take_set_of_le le_rfl
  refine ⟨⟨j, buf'.set j 0, s'⟩, ?_, ?_, ?_, ?_, ?_⟩
  · rw [fGets]
    simp only [hmax]
    rw [Op.bind_ok hrun]
    simp only [hlt, if_true]
    rfl
  · exact length_set.trans hlength
  · rw [Line.piece, hpiece]
    exact length_take_of_le hlt.le
  · exact getElem?_set_self hlt
  · rw [Line.piece, hpiece]
    exact htaken

/-! ## Calls to the end -/

/-- What each line is: at most `max` bytes, a newline at most at the end, shorter than `max` only
with a newline or at the end of the file, and a zero byte behind it in the buffer. -/
structure Line.WellCut (vol : Option FatVolume) (max : Nat) (line : Line δ) : Prop where
  length_eq : line.piece.length = line.count
  length_le : line.count ≤ max
  newline_last : (0x0A : UInt8) ∉ line.piece.dropLast
  short : line.count < max →
    line.piece.getLast? = some 0x0A ∨ fRead vol 1 line.after = .ok [] line.after
  terminated : line.buf[line.count]? = some 0

/-- Nothing is ahead at the end. -/
theorem ReadsInOrder.ended_iff (h : ReadsInOrder vol s bytes) :
    bytes = [] ↔ fRead vol 1 s = .ok [] s := by
  cases h with
  | ended h => exact iff_of_true rfl h
  | byte h hrest =>
    refine iff_of_false (cons_ne_nil _ _) ?_
    rw [h]
    exact fun heq => cons_ne_nil _ _ (Outcome.ok.inj heq).1

theorem linesStep_eq {lines : List (Line δ)} {line : Line δ}
    (h : fGets vol buf n s = .ok (line.count, line.buf) line.after) :
    linesStep vol n (lines, buf) s =
      .ok (if line.count = 0 then .done lines else .next (lines ++ [line], line.buf))
        line.after := by
  rw [linesStep]
  refine (Op.bind_ok h).trans ?_
  show (if line.count = 0 then _ else _ : FileOp δ _) line.after = _
  split <;> rfl

/-- The loop of calls: every call but the last one takes some of the bytes ahead. -/
theorem linesLoop_spec (hn : 2 ≤ n) (hn64 : n < 2 ^ 64) {lines : List (Line δ)}
    (hs : ReadsInOrder vol s bytes) (hsize : bytes.length < 2 ^ 32) (hbuf : 2 ≤ buf.length)
    (hfuel : bytes.length < fuel) :
    ∃ more s', Op.loopM (linesStep vol n) fuel (lines, buf) s = .ok (lines ++ more) s' ∧
      (more.map Line.piece).flatten = withoutReturns bytes ∧
      ∀ line ∈ more, line.buf.length = buf.length ∧ line.WellCut vol (min n buf.length - 1) := by
  induction fuel generalizing s bytes buf lines with
  | zero => exact absurd hfuel (Nat.not_lt_zero _)
  | succ fuel ih =>
    obtain ⟨line, hcall, hlength, hcount, hzero, htaken⟩ := fGets_spec hs hsize hn hn64 hbuf
    obtain ⟨⟨taken, rest, hsplit, hpiece, hrest, hshort⟩, hle, hlast⟩ := htaken
    rw [nil_append] at hpiece
    have hcut : line.WellCut vol (min n buf.length - 1) :=
      { length_eq := hcount
        length_le := hcount ▸ hle
        newline_last := hlast
        short := fun hlt => (hshort (hcount ▸ hlt)).imp_right hrest.ended_iff.mp
        terminated := hzero }
    by_cases hend : line.count = 0
    · -- nothing was kept, so nothing is left
      have hnil : line.piece = [] := length_eq_zero_iff.mp (hcount.trans hend)
      have hleft : rest = [] := by
        refine (hshort ?_).resolve_left ?_
        · rw [hnil, length_nil]
          omega
        · rw [hnil, getLast?_nil]
          exact (Option.some_ne_none _).symm
      refine ⟨[], line.after, ?_, ?_, fun _ hmem => absurd hmem not_mem_nil⟩
      · have hstep : linesStep vol n (lines, buf) s = .ok _ line.after := linesStep_eq hcall
        rw [if_pos hend] at hstep
        rw [append_nil]
        exact Op.loopM_done hstep
      · rw [hsplit, hleft, append_nil, ← hpiece, hnil]
        rfl
    · have hne : taken ≠ [] := by
        rintro rfl
        rw [hpiece] at hcount
        exact hend hcount.symm
      have hpos := length_pos_iff.mpr hne
      have hlen : bytes.length = taken.length + rest.length := by rw [hsplit, length_append]
      have hline : 2 ≤ line.buf.length := hlength ▸ hbuf
      obtain ⟨more, s', hrun, hpieces, hmore⟩ := ih hrest (by omega) hline (by omega)
      refine ⟨line :: more, s', ?_, ?_, ?_⟩
      · have hstep : linesStep vol n (lines, buf) s = .ok _ line.after := linesStep_eq hcall
        rw [if_neg hend] at hstep
        rw [append_cons]
        exact (Op.loopM_next hstep).trans hrun
      · rw [map_cons, flatten_cons, hpieces, hpiece, ← withoutReturns_append, hsplit]
      · intro other hmem
        rcases mem_cons.mp hmem with rfl | hmem
        · exact ⟨hlength, hcut⟩
        · exact hlength ▸ hmore other hmem

end Calls

/-! ## Handles that read in order -/

/-- `f_read` at the end of a file. -/
theorem fRead_at_end {δ : Type} [BlockDevice δ] {s : OpenFile δ}
    (hread : s.file.flags &&& FA_READ ≠ 0) (hend : s.file.position = s.file.size)
    (hsmall : s.file.size < 2 ^ 32) (len : Nat) : fRead vol len s = .ok [] s := by
  have hremaining : (s.file.size + (2 ^ 32 - s.file.position)) % 2 ^ 32 = 0 := by
    rw [hend, Nat.add_sub_of_le hsmall.le, Nat.mod_self]
  have hfile : getFile s = .ok s.file s := rfl
  rw [fRead, Op.bind_ok hfile, if_neg hread, hremaining, if_pos (Nat.min_zero len)]
  rfl

section Handles

variable {vol : FatVolume} {img : Image} {s : OpenFile Disk} {l : List Nat}

/-- A seated handle reads the bytes from its position on in order. -/
theorem Seated.readsInOrder (hg : Geometry vol) (hv : view vol s.dev = img)
    (h : Seated vol img s.file l) (hread : s.file.flags &&& FA_READ ≠ 0) : ReadsInOrder (some vol) s
      (fileBytes vol img l s.file.position (s.file.size - s.file.position)) := by
  have hinside := h.inside
  induction hleft : s.file.size - s.file.position generalizing s with
  | zero => exact .ended (fRead_at_end hread (by omega) h.small 1)
  | succ left ih =>
    have hone : min 1 (s.file.size - s.file.position) = 1 := by omega
    obtain ⟨bytes, s', hrun, hdev, h', hsame, hpos, hbytes⟩ :=
      (fRead_seated hg hv h hread 1).ok
    rw [hone] at hpos hbytes
    have hsize := hsame.size
    have hrest := ih (hdev ▸ hv) h' (hsame.flags ▸ hread) h'.inside (by omega)
    rw [Nat.add_comm, ← fileBytes_append, ← hpos]
    rw [hbytes, fileBytes_one] at hrun
    exact .byte hrun hrest

end Handles

/-! ## The result -/

/-- **`f_gets` splits a file into lines without loss.** The calls until the result is 0 return, and
their pieces are the bytes ahead without the carriage returns, cut into lines. -/
theorem gets_splits {δ : Type} [BlockDevice δ] (vol : Option FatVolume) (s : OpenFile δ)
    (bytes buf : Bytes) (n : Nat) (hs : ReadsInOrder vol s bytes)
    (hsize : bytes.length < 2 ^ 32) (hn : 2 ≤ n) (hn64 : n < 2 ^ 64) (hbuf : 2 ≤ buf.length) :
    ∃ lines s', getLines vol buf n s = .ok lines s' ∧
      (lines.map Line.piece).flatten = bytes.filter (fun b => b ≠ 0x0D) ∧
      ∀ line ∈ lines, line.buf.length = buf.length ∧ line.WellCut vol (min n buf.length - 1) := by
  obtain ⟨lines, s', hrun, hpieces, hcut⟩ :=
    linesLoop_spec hn hn64 hs hsize hbuf (hsize.trans loopBound_gt)
  exact ⟨lines, s', hrun, hpieces, hcut⟩

/-- A root directory with the file `F`, which holds `a`, a carriage return, a newline and `b`. -/
def linesDisk : Disk :=
  diskOf (0x0FFFFFF8 :: replicate 3 0x0FFFFFFF) [fileSlot [0x46] 3 4, [0x61, 0x0D, 0x0A, 0x62]]

/-- The handle on `F`, for reading. -/
def linesFile : File := oldFile FA_READ (2, 0) ((view tinyVol linesDisk).slot (2, 0))

theorem lines_seated : Seated tinyVol (view tinyVol linesDisk) linesFile [3] where
  chain := by decide +kernel
  covers := by decide +kernel
  inside := by decide +kernel
  small := by decide +kernel
  cursor := .inl ⟨0, by decide +kernel, by decide +kernel, by decide +kernel, by decide +kernel⟩

/-- `f_gets` with a buffer of 8 bytes: the lines of the file without the carriage return. -/
theorem gets_splits_sample : ∃ lines s',
    getLines (some tinyVol) (replicate 8 0) 80 ⟨linesDisk, linesFile⟩ = .ok lines s' ∧
      (lines.map Line.piece).flatten = [0x61, 0x0A, 0x62] := by
  have hbytes : fileBytes tinyVol (view tinyVol linesDisk) [3] linesFile.position
      (linesFile.size - linesFile.position) = [0x61, 0x0D, 0x0A, 0x62] := by decide +kernel
  have hs : ReadsInOrder (some tinyVol) ⟨linesDisk, linesFile⟩ [0x61, 0x0D, 0x0A, 0x62] :=
    hbytes ▸ lines_seated.readsInOrder (s := ⟨linesDisk, linesFile⟩) tiny_geometry rfl
      (by decide +kernel)
  obtain ⟨lines, s', hrun, hpieces, -⟩ := gets_splits (some tinyVol) ⟨linesDisk, linesFile⟩ _
    (replicate 8 0) 80 hs (by decide) (by decide) (by decide) (by decide)
  exact ⟨lines, s', hrun, hpieces⟩

end PlanckOS.Fat32
