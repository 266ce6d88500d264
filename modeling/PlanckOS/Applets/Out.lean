import PlanckOS.Applets.Files
import PlanckOS.Fat32.Gets
import PlanckOS.Lib.Blocks
import PlanckOS.Lib.Hex

/-!
# The applet `src/applets/out`

`out` prints a file. A first block without a NUL byte makes it a text, which is written block by
block; otherwise rows of 16 bytes are printed in hexadecimal.

A block of a text is written as it is if it is UTF-8 on its own, and as a question mark otherwise.
`out_text_iff` says that a text is printed as it is exactly if no character lies across two blocks.
`out_dump_reads_back` is the dump: its rows, read back, are the bytes of the file, with their
offsets. Both rest on `Delivers` for the handle of the file.
-/

set_option autoImplicit false

namespace PlanckOS.Applets.Out

open Lib.Fallible Lib.Loop Lib.Blocks Lib.Hex Fat32 List

variable {vol : Option FatVolume} {content : Bytes} {file : File} {args : List String}
  {path : String} {limit : Nat} {info : FileInfo} {ahead row : Bytes}
  {fuel k i remain left offset : Nat}

/-! ## Arguments -/

def BUF_SIZE : Nat := 512
def HEX_COLS : Nat := 16

/-- `str::parse::<usize>`. -/
def parseUsize (s : String) : Option Nat :=
  let digits := match s.toList with
    | '+' :: cs => cs
    | cs => cs
  if digits.isEmpty ∨ !digits.all Char.isDigit then none
  else
    let v := digits.foldl (fun v c => 10 * v + (c.toNat - 0x30)) 0
    if v < 2 ^ 64 then some v else none

/-- The loop of `parse_args`. -/
def parseLoop : List String → String × Nat → Except String (String × Nat)
  | [], r => .ok r
  | arg :: args, (path, limit) =>
      match arg.toList with
      | '-' :: 'n' :: _ =>
          match args with
          | [] => .ok (path, limit)
          | value :: args => parseLoop args (path, (parseUsize value).getD 0)
      | '-' :: _ :: _ => .error "invalid option"
      | _ => parseLoop args (arg, limit)

def parseArgs (args : List String) : Except String (String × Nat) := parseLoop args ("", 0)

/-! ## Text -/

variable {δ : Type} [BlockDevice δ]

/-- `f_read(..).unwrap_or(0)`: the bytes read. -/
def readOrNone (r : Except FError Bytes) : Bytes :=
  match r with
  | .ok bytes => bytes
  | .error _ => []

/-- One round of the text loop, with `remaining` bytes to go. -/
def textStep (vol : Option FatVolume) (s : Nat × File) : TermOp δ (Flow (Nat × File) Unit) := do
  if s.1 = 0 then pure (.done ())
  else do
    let (r, file) ← attemptFile (fRead vol (min BUF_SIZE s.1)) s.2
    let bytes := readOrNone r
    if bytes = [] then pure (.done ())
    else do
      write [.path (utf8Or "?" bytes)]
      pure (.next (s.1 - bytes.length, file))

def showText (vol : Option FatVolume) (remain : Nat) (file : File) : TermOp δ Unit := do
  Op.loopM (textStep vol) LOOP_BOUND (remain, file)
  write [.newline]

/-! ## Dump -/

/-- `off_str`: the offset in eight digits. -/
def offsetText (o : Nat) : Bytes :=
  [28, 24, 20, 16, 12, 8, 4, 0].map fun k => hexDigit ((o >>> k) &&& 0xF)

/-- `hex_chars`: a byte in two digits. -/
def pairText (b : UInt8) : Bytes := [hexDigit (b.toNat >>> 4), hexDigit (b.toNat &&& 0xF)]

/-- A byte in the column of characters. -/
def asciiChar (c : UInt8) : UInt8 := if 0x20 ≤ c ∧ c < 0x7F then c else 0x2E

/-- A row of the dump. -/
def hexRow (o : Nat) (bytes : Bytes) : List Piece :=
  [Piece.path (utf8Or "????????" (offsetText o)), Piece.text "  "] ++
  bytes.flatMap (fun b => [Piece.path (utf8Or "??" (pairText b)), Piece.path [0x20]]) ++
  replicate (HEX_COLS - bytes.length) (Piece.text "   ") ++ [Piece.text " |"] ++
  bytes.map (fun c => Piece.path [asciiChar c]) ++ [Piece.text "|", Piece.newline]

/-- The rows of a block that was read at `offset`. -/
def hexRows (offset : Nat) (bytes : Bytes) : List Piece :=
  (range ((bytes.length + HEX_COLS - 1) / HEX_COLS)).flatMap fun r =>
    hexRow ((offset + HEX_COLS * r) % 2 ^ 32) (block HEX_COLS bytes r)

/-- One round of the dump loop. -/
def hexStep (vol : Option FatVolume) (remain : Nat) (s : Nat × File) :
    TermOp δ (Flow (Nat × File) Unit) := do
  if remain % 2 ^ 32 ≤ s.1 then pure (.done ())
  else do
    let (r, file) ← attemptFile (fRead vol (min BUF_SIZE (remain - s.1))) s.2
    let bytes := readOrNone r
    if bytes = [] then pure (.done ())
    else do
      write (hexRows s.1 bytes)
      pure (.next ((s.1 + bytes.length) % 2 ^ 32, file))

def showDump (vol : Option FatVolume) (remain : Nat) (file : File) : TermOp δ Unit :=
  Op.loopM (hexStep vol remain) LOOP_BOUND (0, file)

/-! ## The applet -/

/-- What is printed of an open file. -/
def showFile (vol : Option FatVolume) (limit : Nat) (file : File) : TermOp δ Unit := do
  let size := fSize file
  let (r, file) ← attemptFile (fRead vol BUF_SIZE) file
  let isBinary := (readOrNone r).contains 0
  let (_, file) ← attemptFile (fLseek vol 0) file
  let remain := if 0 < limit then min limit size else size
  if isBinary then showDump vol remain file else showText vol remain file

def run (vol : Option FatVolume) (args : List String) : TermOp δ Unit :=
  match parseArgs args with
  | .error e => write [.text "out: ", .text e, .newline]
  | .ok (path, limit) =>
      if path.isEmpty then write [.text "out: missing file operand", .newline]
      else do
        match ← attempt (fStat vol (textBytes path)) with
        | .error _ => write [.text "out: cannot access '", .text path,
            .text "': No such file or directory", .newline]
        | .ok info =>
            if info.attributes &&& 0x10 ≠ 0 then
              write [.text "out: '", .text path, .text "': Is a directory", .newline]
            else do
              match ← attempt (fOpen vol (textBytes path) FA_READ) with
              | .error _ => write [.text "out: cannot open '", .text path, .text "'", .newline]
              | .ok file => showFile vol limit file

/-! ## A text is printed block by block -/

section Loops

variable {At : OpenFile δ → Bytes → Prop} {s : Terminal δ}

/-- One block of a text. -/
theorem textStep_run (h : Delivers vol content At) (hat : At ⟨s.dev, file⟩ ahead)
    (hahead : ahead ≠ []) : ∃ t file', textStep vol (ahead.length, file) s =
        .ok (.next ((ahead.drop BUF_SIZE).length, file')) t ∧
      At ⟨t.dev, file'⟩ (ahead.drop BUF_SIZE) ∧
      shown t = shown s ++ utf8Or "?" (ahead.take BUF_SIZE) := by
  have hpos := length_pos_iff.mpr hahead
  have htake : ahead.take (min BUF_SIZE ahead.length) = ahead.take BUF_SIZE := by
    rw [← take_take, take_length]
  have hdrop : ahead.drop (min BUF_SIZE ahead.length) = ahead.drop BUF_SIZE := by
    rcases Nat.le_total BUF_SIZE ahead.length with hle | hle
    · rw [Nat.min_eq_left hle]
    · rw [Nat.min_eq_right hle, drop_length, drop_of_length_le hle]
  have hne : ahead.take BUF_SIZE ≠ [] := by
    rw [Ne, take_eq_nil_iff]
    exact fun h => h.elim (by decide) hahead
  obtain ⟨t₁, file', hread, hat', hdisplay⟩ := h.attemptRead hat (min BUF_SIZE ahead.length)
  rw [htake] at hread
  rw [hdrop] at hat'
  obtain ⟨t₂, hwrite, hdev, hshown⟩ := shown_write [.path (utf8Or "?" (ahead.take BUF_SIZE))] t₁
  refine ⟨t₂, file', ?_, hdev ▸ hat', ?_⟩
  · rw [textStep, if_neg hpos.ne', Op.bind_ok hread]
    dsimp only [readOrNone]
    have hlength : ahead.length - min BUF_SIZE ahead.length = ahead.length - BUF_SIZE := by omega
    rw [if_neg hne, Op.bind_ok hwrite, Op.pure_run, length_take, length_drop, hlength]
  · rw [hshown, shown, hdisplay]
    simp [shown, Piece.bytes]

/-- The text loop prints what is ahead, a block at a time. -/
theorem textLoop_run (h : Delivers vol content At) (hat : At ⟨s.dev, file⟩ ahead)
    (hfuel : ahead.length < fuel) :
    ∃ t, Op.loopM (textStep vol) fuel (ahead.length, file) s = .ok () t ∧
      shown t = shown s ++ mapBlocks BUF_SIZE (fun _ => utf8Or "?") ahead := by
  induction fuel generalizing ahead file s with
  | zero => omega
  | succ fuel ih =>
    by_cases hahead : ahead = []
    · subst hahead
      refine ⟨s, Op.loopM_done rfl, ?_⟩
      rw [mapBlocks_nil (by decide), append_nil]
    · have hpos := length_pos_iff.mpr hahead
      obtain ⟨t₁, file', hstep, hat', hshown⟩ := textStep_run h hat hahead
      obtain ⟨t₂, hrest, hshown'⟩ := ih hat' (by rw [length_drop, BUF_SIZE]; omega)
      refine ⟨t₂, (Op.loopM_next hstep).trans hrest, ?_⟩
      rw [hshown', hshown, mapBlocks_cons (by decide) _ hahead, append_assoc]

/-- A text without the limit of `-n`, from the open handle on. -/
theorem showFile_text (h : Delivers vol content At) (hat : At ⟨s.dev, file⟩ content)
    (hsize : fSize file = content.length) (hsmall : content.length < 2 ^ 32) (hnul : 0 ∉ content) :
    ∃ t, showFile vol 0 file s = .ok () t ∧
      shown t = shown s ++ mapBlocks BUF_SIZE (fun _ => utf8Or "?") content ++ [0x0A] := by
  obtain ⟨t₁, file₁, hread, hat₁, hdisplay₁⟩ := h.attemptRead hat BUF_SIZE
  obtain ⟨t₂, file₂, hseek, hat₂, hdisplay₂⟩ := h.attemptRewind hat₁
  obtain ⟨t₃, hloop, hshown⟩ := textLoop_run h hat₂ (hsmall.trans loopBound_gt)
  obtain ⟨t₄, hwrite, -, hshown'⟩ := shown_write [.newline] t₃
  have hprobe : (content.take BUF_SIZE).contains 0 = false := by
    rw [Bool.eq_false_iff, Ne, contains_iff_mem]
    exact fun h => hnul (mem_of_mem_take h)
  refine ⟨t₄, ?_, ?_⟩
  · rw [showFile, Op.bind_ok hread]
    dsimp only [readOrNone]
    rw [hprobe, Op.bind_ok hseek]
    simp only [Bool.false_eq_true, if_false, Nat.lt_irrefl]
    rw [showText, hsize, Op.bind_ok hloop, hwrite]
  · rw [hshown', hshown, shown, hdisplay₂, hdisplay₁]
    rfl

/-- `run` for a file that is there and is no directory. -/
theorem run_file
    (hargs : parseArgs args = .ok (path, limit)) (hpath : path.isEmpty = false)
    {d₁ d₂ : δ} (hstat : fStat vol (textBytes path) s.dev = .ok info d₁)
    (hregular : info.attributes &&& 0x10 = 0)
    (hopen : fOpen vol (textBytes path) FA_READ d₁ = .ok file d₂) :
    run vol args s = showFile vol limit file ⟨d₂, s.display⟩ := by
  have hstat' : attempt (fStat vol (textBytes path)) s = .ok (.ok info) ⟨d₁, s.display⟩ := by
    rw [attempt, hstat]
  have hopen' : attempt (fOpen vol (textBytes path) FA_READ) ⟨d₁, s.display⟩ =
      .ok (.ok file) ⟨d₂, s.display⟩ := by
    rw [attempt, hopen]
  rw [run, hargs]
  simp only [hpath, Bool.false_eq_true, if_false]
  rw [Op.bind_ok hstat']
  simp only [hregular, ne_eq, not_true_eq_false, if_false]
  rw [Op.bind_ok hopen']

end Loops

theorem utf8Or_invalid {b : Bytes} (hb : ¬ validUtf8 b = true) : utf8Or "?" b = [0x3F] := by
  rw [utf8Or, if_neg hb]
  decide

/-- No more is printed for blocks than they have. -/
theorem printed_length_le (bs : List Bytes) (hne : ∀ b ∈ bs, b ≠ []) :
    (bs.flatMap (utf8Or "?")).length ≤ bs.flatten.length := by
  induction bs with
  | nil => exact Nat.le_refl _
  | cons b bs ih =>
    rw [forall_mem_cons] at hne
    have hb : (utf8Or "?" b).length ≤ b.length := by
      by_cases hb : validUtf8 b = true
      · rw [utf8Or, if_pos hb]
      · rw [utf8Or_invalid hb]
        exact length_pos_iff.mpr hne.1
    rw [flatMap_cons, flatten_cons, length_append, length_append]
    exact Nat.add_le_add hb (ih hne.2)

/-- What is printed for blocks is the blocks exactly if each is UTF-8 on its own. -/
theorem printed_iff (bs : List Bytes) (hne : ∀ b ∈ bs, b ≠ []) :
    bs.flatMap (utf8Or "?") = bs.flatten ↔ ∀ b ∈ bs, validUtf8 b = true := by
  induction bs with
  | nil => simp
  | cons b bs ih =>
    rw [forall_mem_cons] at hne ⊢
    rw [flatMap_cons, flatten_cons]
    by_cases hb : validUtf8 b = true
    · rw [utf8Or, if_pos hb, append_cancel_left_eq]
      exact (ih hne.2).trans (and_iff_right hb).symm
    · refine iff_of_false (fun heq => hb ?_) fun h => hb h.1
      -- By the lengths the question mark stands for a block of one byte, so it is this byte.
      have hlength := congrArg length heq
      have hpos := length_pos_iff.mpr hne.1
      have hle := printed_length_le bs hne.2
      rw [utf8Or_invalid hb] at heq hlength
      rw [length_append, length_append, length_singleton] at hlength
      obtain ⟨c, rfl⟩ := length_eq_one_iff.mp (show b.length = 1 by omega)
      obtain rfl : (0x3F : UInt8) = c := (cons.inj heq).1
      decide

/-- **A text file is printed as it is, and a newline behind it, exactly if every block of 512 bytes
is UTF-8 on its own**, that is if no character lies across the end of a block. -/
theorem out_text_iff
    (hargs : parseArgs args = .ok (path, 0)) (hpath : path.isEmpty = false) {s : Terminal δ}
    {d₁ d₂ : δ}
    (hstat : fStat vol (textBytes path) s.dev = .ok info d₁)
    (hregular : info.attributes &&& 0x10 = 0)
    (hopen : fOpen vol (textBytes path) FA_READ d₁ = .ok file d₂)
    {At : OpenFile δ → Bytes → Prop} (hdelivers : Delivers vol content At)
    (hat : At ⟨d₂, file⟩ content) (hsize : fSize file = content.length)
    (hsmall : content.length < 2 ^ 32) (hnul : 0 ∉ content) : ∃ t, run vol args s = .ok () t ∧
      (shown t = shown s ++ content ++ [0x0A] ↔
        ∀ k < count BUF_SIZE content, validUtf8 (block BUF_SIZE content k) = true) := by
  have hat' : At ⟨(⟨d₂, s.display⟩ : Terminal δ).dev, file⟩ content := hat
  obtain ⟨t, hrun, hshown⟩ := showFile_text hdelivers hat' hsize hsmall hnul
  refine ⟨t, (run_file hargs hpath hstat hregular hopen).trans hrun, ?_⟩
  have hnonempty : ∀ b ∈ (range (count BUF_SIZE content)).map (block BUF_SIZE content), b ≠ [] := by
    intro b hb
    obtain ⟨k, hk, rfl⟩ := mem_map.mp hb
    have hlt := lt_length_of_lt_count (by decide) (mem_range.mp hk)
    rw [Ne, ← length_eq_zero_iff, block_length, BUF_SIZE]
    rw [BUF_SIZE] at hlt
    omega
  have hblocks := printed_iff _ hnonempty
  rw [flatMap_map, ← flatMap_def, flatMap_block_all (by decide)] at hblocks
  rw [hshown, show shown (⟨d₂, s.display⟩ : Terminal δ) = shown s from rfl,
    append_cancel_right_eq, append_cancel_left_eq]
  refine hblocks.trans ?_
  simp only [forall_mem_map, mem_range]

theorem validUtf8_letters (n : Nat) : validUtf8 (replicate n 0x61) = true := by
  apply validUtf8_ascii
  intro b hb
  rw [eq_of_mem_replicate hb]
  decide

/-- A text of 602 bytes with a character of two bytes at the end of its first block. -/
def alignedText : Bytes := replicate 510 0x61 ++ [0xC3, 0xA9] ++ replicate 90 0x61

theorem out_text_iff_aligned : ∃ t, run (some tinyVol) ["F"] ⟨fileDisk alignedText, []⟩ = .ok () t ∧
    shown t = alignedText ++ [0x0A] := by
  have hplaced : Placed alignedText := by decide +kernel
  obtain ⟨info, hstat, hregular⟩ := hplaced.stat
  obtain ⟨hdelivers, hat⟩ := hplaced.delivers
  have hargs : parseArgs ["F"] = .ok ("F", 0) := rfl
  obtain ⟨t, hrun, hiff⟩ := out_text_iff (s := ⟨fileDisk alignedText, []⟩) hargs rfl hstat hregular
    hplaced.opens hdelivers hat (by decide +kernel) (by decide +kernel) (by decide +kernel)
  refine ⟨t, hrun, hiff.mpr fun k hk => ?_⟩
  have hcount : count BUF_SIZE alignedText = 2 := by decide +kernel
  have hblocks : block BUF_SIZE alignedText 0 = replicate 510 0x61 ++ [0xC3, 0xA9] ∧
      block BUF_SIZE alignedText 1 = replicate 90 0x61 := by decide +kernel
  rw [hcount] at hk
  interval_cases k
  · rw [hblocks.1]
    exact validUtf8_append (validUtf8_letters 510) (by decide)
  · rw [hblocks.2]
    exact validUtf8_letters 90

/-- A text of 513 bytes whose last character has one byte in each block. -/
def accentText : Bytes := replicate 511 0x61 ++ [0xC3, 0xA9]

/-- The file is valid UTF-8 without NUL bytes, and `out` prints two question marks for it. -/
theorem out_splits_character : validUtf8 accentText = true ∧ 0 ∉ accentText ∧
      ∃ t, run (some tinyVol) ["F"] ⟨fileDisk accentText, []⟩ = .ok () t ∧
        shown t = [0x3F, 0x3F, 0x0A] := by
  have hplaced : Placed accentText := by decide +kernel
  have hnul : 0 ∉ accentText := by decide +kernel
  have hfront := validUtf8_letters 511
  obtain ⟨info, hstat, hregular⟩ := hplaced.stat
  obtain ⟨hdelivers, hat⟩ := hplaced.delivers
  have hsize : fSize (fileHandle accentText) = accentText.length := by decide +kernel
  have hat' : SeatedAt tinyVol (fileImage accentText) [3, 4] accentText.length
      ⟨(⟨fileDisk accentText, []⟩ : Terminal Disk).dev, fileHandle accentText⟩ accentText := hat
  obtain ⟨t, hrun, hshown⟩ := showFile_text hdelivers hat' hsize (by decide +kernel) hnul
  refine ⟨validUtf8_append hfront (by decide), hnul, t, ?_, ?_⟩
  · exact (run_file rfl rfl hstat hregular hplaced.opens).trans hrun
  · -- Neither block is valid on its own.
    have htake : accentText.take BUF_SIZE = replicate 511 0x61 ++ [0xC3] := by decide +kernel
    have hdrop : accentText.drop BUF_SIZE = [0xA9] := by decide +kernel
    have hfirst : ¬ validUtf8 (replicate 511 0x61 ++ [0xC3]) = true := by
      rw [validUtf8_append_iff hfront]
      decide
    rw [hshown, mapBlocks_cons (by decide) _ (by decide +kernel), htake, hdrop,
      mapBlocks_cons (by decide) _ (by decide), utf8Or_invalid hfirst,
      utf8Or_invalid (show ¬ validUtf8 ([0xA9].take BUF_SIZE) = true by decide)]
    rfl

/-! ## A row of the dump -/

/-- The three characters of a column: a byte, or nothing. -/
def cellText : Option UInt8 → Bytes
  | some b => pairText b ++ [0x20]
  | none => [0x20, 0x20, 0x20]

/-- The 16 columns of a row. -/
def rowCells (bytes : Bytes) : List (Option UInt8) :=
  bytes.map some ++ replicate (HEX_COLS - bytes.length) none

/-- The characters of a row in front of its newline. -/
def rowText (o : Nat) (bytes : Bytes) : Bytes :=
  hexFixed 8 o ++ [0x20, 0x20] ++ (rowCells bytes).flatMap cellText ++ [0x20] ++
    0x7C :: bytes.map asciiChar ++ [0x7C]

section Rows

variable {o : Nat} {bytes : Bytes}

theorem pairText_ascii (b : UInt8) : ∀ c ∈ pairText b, 0x30 ≤ c ∧ c ≤ 0x46 := by
  have hhigh : b.toNat >>> 4 < 16 := by
    rw [Nat.shiftRight_eq_div_pow]
    have := b.toNat_lt
    omega
  have hlow : b.toNat &&& 0xF < 16 := Nat.and_lt_two_pow b.toNat (show 0xF < 2 ^ 4 by decide)
  simp only [pairText, forall_mem_cons, not_mem_nil, false_implies, implies_true, and_true]
  exact ⟨hexDigit_range hhigh, hexDigit_range hlow⟩

theorem hexFixed_ascii (k v : Nat) : ∀ c ∈ hexFixed k v, 0x30 ≤ c ∧ c ≤ 0x46 := by
  intro c hc
  obtain ⟨i, -, rfl⟩ := mem_map.mp hc
  exact hexDigit_range (Nat.and_lt_two_pow _ (show 0xF < 2 ^ 4 by decide))

theorem utf8Or_ascii {other : String} {cs : Bytes} (h : ∀ c ∈ cs, 0x30 ≤ c ∧ c ≤ 0x46) :
    utf8Or other cs = cs := by
  rw [utf8Or, if_pos]
  exact validUtf8_ascii fun c hc => UInt8.lt_of_le_of_lt (h c hc).2 (by decide)

/-- What is printed for a row. -/
theorem hexRow_bytes : (hexRow o bytes).flatMap Piece.bytes = rowText o bytes ++ [0x0A] := by
  have hoffset : utf8Or "????????" (offsetText o) = hexFixed 8 o :=
    utf8Or_ascii (hexFixed_ascii 8 o)
  have hpairs : bytes.flatMap (fun b => (utf8Or "??" (pairText b)) ++ [0x20]) =
      (bytes.map some).flatMap cellText := by
    rw [flatMap_map]
    congr 1
    funext b
    rw [utf8Or_ascii (pairText_ascii b)]
    rfl
  have hascii : bytes.flatMap (fun c => [asciiChar c]) = bytes.map asciiChar :=
    (map_eq_flatMap ..).symm
  simp only [hexRow, flatMap_append, flatMap_cons, flatMap_nil, flatMap_assoc,
    flatMap_map, flatMap_replicate, append_nil, Piece.bytes, hoffset, hascii]
  have htexts : textBytes "  " = [0x20, 0x20] ∧ textBytes "   " = cellText none ∧
      textBytes " |" = [0x20, 0x7C] ∧ textBytes "|" = [0x7C] := by decide
  obtain ⟨htwo, hthree, hbar, hlast⟩ := htexts
  rw [rowText, rowCells, flatMap_append, ← hpairs, htwo, hthree, hbar, hlast]
  simp [flatMap_replicate]

/-! ### Reading a row -/

/-- The offset of a row. -/
def rowOffset (row : Bytes) : Option Nat := readHex (row.take 8)

/-- The byte in column `k` of a row. -/
def readCell (row : Bytes) (k : Nat) : Option UInt8 := do
  let high ← hexValue (← row[10 + 3 * k]?)
  let low ← hexValue (← row[11 + 3 * k]?)
  pure (UInt8.ofNat (16 * high + low))

/-- The bytes of a row: those of the columns that have one. -/
def rowBytes (row : Bytes) : Bytes := (range HEX_COLS).filterMap (readCell row)

variable (h : bytes.length ≤ HEX_COLS)
include h

theorem rowCells_length : (rowCells bytes).length = HEX_COLS := by
  rw [rowCells, length_append, length_map, length_replicate]
  omega

omit h in
theorem cellText_length (c : Option UInt8) : (cellText c).length = 3 := by
  cases c <;> rfl

theorem cellsText_length : ((rowCells bytes).flatMap cellText).length = 48 := by
  rw [length_flatMap, map_congr_left fun c _ => cellText_length c, map_const',
    sum_replicate, rowCells_length h]
  rfl

/-- A character of a column. -/
theorem rowText_cell (hk : k < HEX_COLS) (hi : i < 3) : (rowText o bytes)[10 + (3 * k + i)]? =
      ((rowCells bytes)[k]?).bind fun c => (cellText c)[i]? := by
  have hlength := cellsText_length h
  rw [HEX_COLS] at hk
  have hsub : 10 + (3 * k + i) - (hexFixed 8 o ++ [0x20, 0x20]).length = 3 * k + i := by simp
  rw [rowText, append_assoc, append_assoc, append_assoc, getElem?_append_right (by simp), hsub,
    getElem?_append_left (by rw [hlength]; omega)]
  exact getElem?_flatMap_length cellText_length _ hi

omit h in
/-- Two digits are read back. -/
theorem readCell_pair (b : UInt8) : hexValue (hexDigit (b.toNat >>> 4)) = some (b.toNat / 16) ∧
      hexValue (hexDigit (b.toNat &&& 0xF)) = some (b.toNat % 16) := by
  have hhigh : b.toNat >>> 4 = b.toNat / 16 := Nat.shiftRight_eq_div_pow b.toNat 4
  have hlow : b.toNat &&& 0xF = b.toNat % 16 := Nat.and_two_pow_sub_one_eq_mod b.toNat 4
  have hb := b.toNat_lt
  rw [hhigh, hlow]
  exact ⟨hexValue_hexDigit (by omega), hexValue_hexDigit (by omega)⟩

theorem readCell_rowText (hk : k < HEX_COLS) :
    readCell (rowText o bytes) k = ((rowCells bytes)[k]?).bind id := by
  have hhigh := rowText_cell (o := o) h hk (show 0 < 3 by decide)
  have hlow := rowText_cell (o := o) h hk (show 1 < 3 by decide)
  rw [Nat.add_zero] at hhigh
  rw [show 10 + (3 * k + 1) = 11 + 3 * k by omega] at hlow
  rw [readCell, hhigh, hlow]
  rcases (rowCells bytes)[k]? with _ | _ | b
  · rfl
  · rfl
  · obtain ⟨hfirst, hsecond⟩ := readCell_pair b
    have hvalue : UInt8.ofNat (16 * (b.toNat / 16) + b.toNat % 16) = b := by
      rw [Nat.div_add_mod, UInt8.ofNat_toNat]
    change ((hexValue (hexDigit (b.toNat >>> 4))).bind fun high =>
      (hexValue (hexDigit (b.toNat &&& 0xF))).bind fun low =>
        some (UInt8.ofNat (16 * high + low))) = some b
    rw [hfirst, hsecond, Option.bind_some, Option.bind_some, hvalue]

/-- **The bytes of a row are read back.** -/
theorem rowBytes_rowText : rowBytes (rowText o bytes) = bytes := by
  have hcells : rowBytes (rowText o bytes) =
      ((range HEX_COLS).map fun k => ((rowCells bytes)[k]?).bind id).filterMap id := by
    rw [rowBytes, filterMap_map]
    refine filterMap_congr fun k hk => ?_
    exact readCell_rowText h (mem_range.mp hk)
  have hall : ((range HEX_COLS).map fun k => ((rowCells bytes)[k]?).bind id) = rowCells bytes := by
    rw [← rowCells_length h]
    apply ext_getElem (by simp)
    intro k _ hk
    simp [hk]
  rw [hcells, hall, rowCells, filterMap_append, filterMap_map]
  simp

omit h in
theorem rowOffset_rowText (ho : o < 2 ^ 32) : rowOffset (rowText o bytes) = some o := by
  rw [rowOffset, rowText]
  simp only [append_assoc]
  rw [take_left' (hexFixed_length 8 o)]
  exact readHex_hexFixed ho

/-- In front of the bar there are blanks and digits. -/
theorem rowText_front :
    ∃ front : Bytes, rowText o bytes = front ++ 0x7C :: (bytes.map asciiChar ++ [0x7C]) ∧
      front.length = 59 ∧ ∀ c ∈ front, c = 0x20 ∨ 0x30 ≤ c ∧ c ≤ 0x46 := by
  refine ⟨hexFixed 8 o ++ [0x20, 0x20] ++ (rowCells bytes).flatMap cellText ++ [0x20], ?_, ?_, ?_⟩
  · rw [rowText, append_assoc, cons_append]
  · rw [length_append, length_append, length_append, cellsText_length h, hexFixed_length]
    rfl
  · intro c hc
    simp only [mem_append, mem_flatMap, mem_cons, not_mem_nil, or_false, or_self] at hc
    rcases hc with ((hc | hc) | ⟨a, -, hc⟩) | hc
    · exact .inr (hexFixed_ascii 8 o c hc)
    · exact .inl hc
    · cases a with
      | none => exact .inl (by simpa [cellText] using hc)
      | some b =>
        rcases mem_append.mp hc with hc | hc
        · exact .inr (pairText_ascii b c hc)
        · exact .inl (mem_singleton.mp hc)
    · exact .inl hc

/-- The bar is the first one of its kind, at the same place in every row. -/
theorem rowText_bar : (rowText o bytes).idxOf 0x7C = 59 := by
  obtain ⟨front, htext, hlength, hfront⟩ := rowText_front (o := o) h
  have hnot : 0x7C ∉ front := fun hc => by
    rcases hfront _ hc with hc | hc
    · exact absurd hc (by decide)
    · exact absurd hc.2 (by decide)
  rw [htext, idxOf_append_of_notMem hnot, idxOf_cons_self, hlength]

theorem rowText_newline : 0x0A ∉ rowText o bytes := by
  obtain ⟨front, htext, -, hfront⟩ := rowText_front (o := o) h
  rw [htext]
  intro hc
  rcases mem_append.mp hc with hc | hc
  · rcases hfront _ hc with hc | hc
    · exact absurd hc (by decide)
    · exact absurd hc.1 (by decide)
  · simp only [mem_cons, mem_append, mem_map, not_mem_nil, or_false] at hc
    rcases hc with hc | ⟨b, -, hb⟩ | hc
    · exact absurd hc (by decide)
    · rw [asciiChar] at hb
      split at hb
      · rename_i hrange
        exact absurd (hb ▸ hrange.1) (by decide)
      · exact absurd hb (by decide)
    · exact absurd hc (by decide)

end Rows

/-! ## The dump -/

/-- The pieces that are printed for the bytes from `offset` on. -/
def dumpPieces (offset : Nat) (bytes : Bytes) : List Piece :=
  mapBlocks HEX_COLS (fun r row => hexRow ((offset + HEX_COLS * r) % 2 ^ 32) row) bytes

theorem hexRows_eq (offset : Nat) (bytes : Bytes) :
    hexRows offset bytes = dumpPieces offset bytes := rfl

/-- A block of 512 bytes and the rest. -/
theorem dumpPieces_split (offset : Nat) (bytes : Bytes) : dumpPieces offset bytes =
      dumpPieces offset (bytes.take BUF_SIZE) ++
        dumpPieces (offset + BUF_SIZE) (bytes.drop BUF_SIZE) := by
  have hsplit := mapBlocks_split (show 0 < HEX_COLS by decide) 32
    (fun r row => hexRow ((offset + HEX_COLS * r) % 2 ^ 32) row) bytes
  have hplace : ∀ r, offset + HEX_COLS * (32 + r) = offset + BUF_SIZE + HEX_COLS * r := by
    intro r
    simp only [HEX_COLS, BUF_SIZE]
    omega
  simp only [hplace] at hsplit
  exact hsplit

section Dump

variable {At : OpenFile δ → Bytes → Prop} {s : Terminal δ}

variable (h : Delivers vol content At)
include h

/-- One block of the dump. -/
theorem hexStep_run (hremain : remain < 2 ^ 32)
    (hat : At ⟨s.dev, file⟩ ahead) (hleft : left ≤ ahead.length) (hoffset : offset + left = remain)
    (hpos : 0 < left) :
    ∃ t file', hexStep vol remain (offset, file) s =
        .ok (.next (offset + min BUF_SIZE left, file')) t ∧
      At ⟨t.dev, file'⟩ (ahead.drop (min BUF_SIZE left)) ∧
      shown t = shown s ++
        (dumpPieces offset (ahead.take (min BUF_SIZE left))).flatMap Piece.bytes := by
  have hread : 0 < min BUF_SIZE left ∧ min BUF_SIZE left ≤ left := by
    simp only [BUF_SIZE]
    omega
  have hlength : (ahead.take (min BUF_SIZE left)).length = min BUF_SIZE left := by
    rw [length_take]
    omega
  obtain ⟨t₁, file', hrun, hat', hdisplay⟩ := h.attemptRead hat (min BUF_SIZE left)
  obtain ⟨t₂, hwrite, hdev, hshown⟩ :=
    shown_write (hexRows offset (ahead.take (min BUF_SIZE left))) t₁
  refine ⟨t₂, file', ?_, hdev ▸ hat', ?_⟩
  · have hrest : remain - offset = left := by omega
    rw [hexStep, if_neg (by rw [Nat.mod_eq_of_lt hremain]; omega), hrest, Op.bind_ok hrun]
    dsimp only [readOrNone]
    rw [if_neg (length_pos_iff.mp (by rw [hlength]; exact hread.1)), Op.bind_ok hwrite,
      Op.pure_run, hlength, Nat.mod_eq_of_lt (by omega)]
  · rw [hshown, hexRows_eq, shown, hdisplay]
    rfl

/-- The dump loop prints the first `left` bytes of what is ahead. -/
theorem hexLoop_run (hremain : remain < 2 ^ 32)
    (hat : At ⟨s.dev, file⟩ ahead) (hleft : left ≤ ahead.length) (hoffset : offset + left = remain)
    (hfuel : left < fuel) :
    ∃ t, Op.loopM (hexStep vol remain) fuel (offset, file) s = .ok () t ∧
      shown t = shown s ++ (dumpPieces offset (ahead.take left)).flatMap Piece.bytes := by
  induction fuel generalizing left offset ahead file s with
  | zero => omega
  | succ fuel ih =>
    have hnil : ∀ o, dumpPieces o [] = [] := fun o => mapBlocks_nil (by decide) _
    rcases Nat.eq_zero_or_pos left with rfl | hpos
    · refine ⟨s, Op.loopM_done ?_, ?_⟩
      · rw [hexStep, if_pos (by rw [Nat.mod_eq_of_lt hremain]; omega)]
        rfl
      · rw [take_zero, hnil, flatMap_nil, append_nil]
    · obtain ⟨t₁, file', hstep, hat', hshown⟩ := hexStep_run h hremain hat hleft hoffset hpos
      have hread : 0 < min BUF_SIZE left ∧ min BUF_SIZE left ≤ left := by
        simp only [BUF_SIZE]
        omega
      have hnext : offset + min BUF_SIZE left + (left - min BUF_SIZE left) = remain := by omega
      obtain ⟨t₂, hrest, hshown'⟩ := ih hat' (by rw [length_drop]; omega) hnext (by omega)
      refine ⟨t₂, (Op.loopM_next hstep).trans hrest, ?_⟩
      rw [hshown', hshown, dumpPieces_split offset (ahead.take left), flatMap_append,
        append_assoc, take_take, drop_take]
      -- A block that is not full is the last one.
      rcases Nat.le_total BUF_SIZE left with hle | hle
      · rw [Nat.min_eq_left hle]
      · rw [Nat.min_eq_right hle, Nat.sub_self, Nat.sub_eq_zero_of_le hle, take_zero,
          take_zero, hnil, hnil]

/-- The dump from the open handle on. -/
theorem showFile_dump (hat : At ⟨s.dev, file⟩ content) (limit : Nat)
    (hsize : fSize file = content.length) (hsmall : content.length < 2 ^ 32)
    (hnul : 0 ∈ content.take BUF_SIZE) : ∃ t, showFile vol limit file s = .ok () t ∧
      shown t = shown s ++ (dumpPieces 0 (content.take
        (if 0 < limit then min limit content.length else content.length))).flatMap Piece.bytes := by
  obtain ⟨t₁, file₁, hread, hat₁, hdisplay₁⟩ := h.attemptRead hat BUF_SIZE
  obtain ⟨t₂, file₂, hseek, hat₂, hdisplay₂⟩ := h.attemptRewind hat₁
  have hremain : (if 0 < limit then min limit content.length else content.length) ≤
      content.length := by
    split <;> omega
  have hprobe : (content.take BUF_SIZE).contains 0 = true := contains_iff_mem.mpr hnul
  obtain ⟨t₃, hloop, hshown⟩ := hexLoop_run h (Nat.lt_of_le_of_lt hremain hsmall) hat₂ hremain
    (Nat.zero_add _) (Nat.lt_of_le_of_lt hremain (hsmall.trans loopBound_gt))
  refine ⟨t₃, ?_, ?_⟩
  · rw [showFile, Op.bind_ok hread]
    dsimp only [readOrNone]
    rw [hprobe, Op.bind_ok hseek]
    simp only [if_true, hsize]
    exact hloop
  · rw [hshown, shown, hdisplay₂, hdisplay₁]
    rfl

end Dump

/-- The rows of the dump of `data`, each with its newline. -/
theorem dumpPieces_bytes (data : Bytes) (hsmall : data.length < 2 ^ 32) :
    (dumpPieces 0 data).flatMap Piece.bytes =
      (range (count HEX_COLS data)).flatMap fun r =>
        rowText (HEX_COLS * r) (block HEX_COLS data r) ++ [0x0A] := by
  rw [dumpPieces, mapBlocks, flatMap_assoc]
  apply flatMap_congr
  intro r hr
  have hlt := lt_length_of_lt_count (by decide) (mem_range.mp hr)
  rw [hexRow_bytes, Nat.zero_add, Nat.mod_eq_of_lt (hlt.trans hsmall)]

section Reading

variable {data : Bytes}

/-- The rows of a dump. -/
def dumpRows (data : Bytes) : List Bytes :=
  (range (count HEX_COLS data)).map fun r => rowText (HEX_COLS * r) (block HEX_COLS data r)

theorem block_length_le (r : Nat) : (block HEX_COLS data r).length ≤ HEX_COLS := by
  rw [block_length]
  exact Nat.min_le_left _ _

theorem dumpRows_getElem? (h : (dumpRows data)[i]? = some row) :
    i < count HEX_COLS data ∧ row = rowText (HEX_COLS * i) (block HEX_COLS data i) := by
  rw [dumpRows, getElem?_map, Option.map_eq_some_iff] at h
  obtain ⟨r, hr, rfl⟩ := h
  obtain ⟨hlt, rfl⟩ := List.getElem?_eq_some_iff.mp hr
  rw [getElem_range]
  exact ⟨by simpa using hlt, rfl⟩

theorem mem_dumpRows (h : row ∈ dumpRows data) :
    ∃ r, row = rowText (HEX_COLS * r) (block HEX_COLS data r) := by
  obtain ⟨i, hi⟩ := mem_iff_getElem?.mp h
  exact ⟨i, (dumpRows_getElem? hi).2⟩

/-- The first rows have the first bytes. -/
theorem dumpRows_bytes {n : Nat} (hn : n ≤ count HEX_COLS data) :
    ((dumpRows data).take n).flatMap rowBytes = data.take (HEX_COLS * n) := by
  rw [← flatMap_block, dumpRows, ← map_take, take_range, Nat.min_eq_left hn, flatMap_map]
  apply flatMap_congr
  intro r _
  exact rowBytes_rowText (block_length_le r)

end Reading

/-- **The dump can be read back.** The text is made of rows with a newline each. The bytes in their
columns are in order the first bytes of the file, up to the limit; the offset of a row is the number
of bytes in the rows before it, every row but the last has 16 bytes, and the bar stands at the same
place in all rows. -/
theorem out_dump_reads_back
    (hargs : parseArgs args = .ok (path, limit)) (hpath : path.isEmpty = false)
    {s : Terminal δ} {d₁ d₂ : δ}
    (hstat : fStat vol (textBytes path) s.dev = .ok info d₁)
    (hregular : info.attributes &&& 0x10 = 0)
    (hopen : fOpen vol (textBytes path) FA_READ d₁ = .ok file d₂)
    {At : OpenFile δ → Bytes → Prop} (hdelivers : Delivers vol content At)
    (hat : At ⟨d₂, file⟩ content) (hsize : fSize file = content.length)
    (hsmall : content.length < 2 ^ 32) (hnul : 0 ∈ content.take 512) :
    ∃ t, ∃ rows : List Bytes, run vol args s = .ok () t ∧
      shown t = shown s ++ rows.flatMap (· ++ [0x0A]) ∧ (∀ row ∈ rows, 0x0A ∉ row) ∧
      rows.flatMap rowBytes =
        content.take (if limit = 0 then content.length else min limit content.length) ∧
      (∀ i row, rows[i]? = some row →
        rowOffset row = some ((rows.take i).flatMap rowBytes).length) ∧
      (∀ i row, rows[i]? = some row → i + 1 < rows.length → (rowBytes row).length = 16) ∧
      ∀ row ∈ rows, row.idxOf 0x7C = 59 := by
  have hlimit : (if 0 < limit then min limit content.length else content.length) =
      if limit = 0 then content.length else min limit content.length := by
    split <;> split <;> omega
  have hat' : At ⟨(⟨d₂, s.display⟩ : Terminal δ).dev, file⟩ content := hat
  obtain ⟨t, hrun, hshown⟩ := showFile_dump hdelivers hat' limit hsize hsmall hnul
  rw [hlimit] at hshown
  generalize (if limit = 0 then content.length else min limit content.length) = remain at hshown ⊢
  have hdata : (content.take remain).length < 2 ^ 32 := by
    rw [length_take]
    omega
  generalize content.take remain = data at hshown hdata ⊢
  have hlength : (dumpRows data).length = count HEX_COLS data := by simp [dumpRows]
  refine ⟨t, dumpRows data, (run_file hargs hpath hstat hregular hopen).trans hrun, ?_, ?_, ?_, ?_,
    ?_, ?_⟩
  · rw [hshown, dumpPieces_bytes data hdata, dumpRows, flatMap_map]
    rfl
  · intro row hrow
    obtain ⟨r, rfl⟩ := mem_dumpRows hrow
    exact rowText_newline (block_length_le r)
  · have hall := dumpRows_bytes (Nat.le_refl (count HEX_COLS data))
    rwa [← hlength, take_length, take_of_length_le] at hall
    rw [hlength]
    exact length_le_count (by decide) data
  · intro i row hi
    obtain ⟨hlt, rfl⟩ := dumpRows_getElem? hi
    have hplace := lt_length_of_lt_count (by decide) hlt
    rw [rowOffset_rowText (hplace.trans hdata), dumpRows_bytes hlt.le, length_take,
      Nat.min_eq_left hplace.le]
  · intro i row hi hnext
    obtain ⟨-, rfl⟩ := dumpRows_getElem? hi
    rw [hlength] at hnext
    have hplace := lt_length_of_lt_count (by decide) hnext
    rw [rowBytes_rowText (block_length_le i), block_length]
    simp only [HEX_COLS] at hplace ⊢
    omega
  · intro row hrow
    obtain ⟨r, rfl⟩ := mem_dumpRows hrow
    exact rowText_bar (block_length_le r)

/-- A file of 602 bytes that is no text. -/
def binaryData : Bytes := [0x50, 0] ++ replicate 600 0x4B

/-- The first 530 bytes: a block of 512 bytes and a part of the next one, the last row not full. -/
theorem out_dump_reads_back_limit : ∃ t, ∃ rows : List Bytes,
    run (some tinyVol) ["-n", "530", "F"] ⟨fileDisk binaryData, []⟩ = .ok () t ∧
      shown t = rows.flatMap (· ++ [0x0A]) ∧ rows.flatMap rowBytes = binaryData.take 530 ∧
      ∀ i row, rows[i]? = some row → i + 1 < rows.length → (rowBytes row).length = 16 := by
  have hplaced : Placed binaryData := by decide +kernel
  obtain ⟨info, hstat, hregular⟩ := hplaced.stat
  obtain ⟨hdelivers, hat⟩ := hplaced.delivers
  have hargs : parseArgs ["-n", "530", "F"] = .ok ("F", 530) := by decide +kernel
  have hlimit : (if 530 = 0 then binaryData.length else min 530 binaryData.length) = 530 := by
    decide +kernel
  obtain ⟨t, rows, hrun, hshown, -, hbytes, -, hfull, -⟩ := out_dump_reads_back
    (s := ⟨fileDisk binaryData, []⟩) hargs rfl hstat hregular hplaced.opens hdelivers hat
    (by decide +kernel) (by decide +kernel) (by decide +kernel)
  rw [hlimit] at hbytes
  exact ⟨t, rows, hrun, hshown, hbytes, hfull⟩

end PlanckOS.Applets.Out
