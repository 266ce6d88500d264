import PlanckOS.Lib.Raster

/-!
# The pixel display of `src/hal/framebuffer.rs`

The framebuffer is a raster of `pitch / 4` words a row, of which `width` columns and `height` rows
are visible. A character is drawn by sampling every second pixel of its glyph; the cursor is kept in
pixels and moves by whole characters. `putchar` wraps at once: a character in the last column moves
the cursor to the next row, and scrolls when there is none.

`Shows` says that a text cell shows a character: its pixels are those of the glyph.
`drawGlyph_shows` and `scroll_shows` say what drawing and scrolling do to the cells, and the cursor
lemmas translate the pixel tests of `putchar` to rows and columns.
-/

set_option autoImplicit false

namespace PlanckOS.Display

open Lib.Raster

variable {c r : Nat}

/-! ## The font -/

/-- What `new` reads from the font file: glyph size, glyph count, bitmaps, and the table behind the
bitmaps if the header announces one. -/
structure FontData where
  glyphW : Nat
  glyphH : Nat
  glyphCount : Nat
  glyphData : List UInt8
  unicode : Option (List UInt16)

/-- The table walk of `glyph_index`: `table[i]` is compared, and the walk ends one before the end.
-/
def tableLookup (cp : UInt16) : List UInt16 → Option Nat
  | a :: b :: rest =>
      if a = cp then some b.toNat
      else if a = 0xFFFF then tableLookup cp rest
      else tableLookup cp (b :: rest)
  | _ => none

namespace FontData

variable (f : FontData)

def glyphIndex (c : UInt8) : Nat :=
  match f.unicode.bind (tableLookup c.toUInt16) with
  | some i => i
  | none => if c.toNat < f.glyphCount then c.toNat else c.toNat % f.glyphCount

/-- Bytes of one glyph. -/
def glyphSize : Nat := f.glyphW * f.glyphH / 8

/-- The bitmap of a glyph. -/
def glyph (idx : Nat) : List UInt8 := (f.glyphData.drop (idx * f.glyphSize)).take f.glyphSize

end FontData

def SCALE : Nat := 1
def DOWNSCALE : Nat := 2

/-! ## The display -/

def FG : UInt32 := 0x00FFFFFF
def BG : UInt32 := 0x0017002E

/-- What does not change while the display is used: the font, and what the boot loader reports. -/
structure Panel where
  font : FontData
  width : Nat
  height : Nat
  pitch : Nat

/-- The pixels, the cursor, where it was drawn last, and whether it is drawn. -/
structure FramebufferDisplay where
  fb : Nat → UInt32
  cursorX : Nat
  cursorY : Nat
  prevCursorX : Nat
  prevCursorY : Nat
  cursorVisible : Bool

/-- A call of the display. -/
inductive DisplayCall where
  | putchar (c : UInt8)
  | write (s : List UInt8)
  | clear
  | showCursor

def FramebufferDisplay.clear (d : FramebufferDisplay) : FramebufferDisplay :=
  { d with fb := fun _ => BG, cursorX := 0, cursorY := 0 }

namespace Panel

variable (g : Panel)

/-- Words in a row of the framebuffer. -/
def fbWidth : Nat := g.pitch / 4

def charW : Nat := g.font.glyphW / DOWNSCALE * SCALE
def charH : Nat := g.font.glyphH / DOWNSCALE * SCALE

def cols : Nat := g.width / g.charW
def rows : Nat := g.height / g.charH

/-- The colour of one pixel of a drawn glyph. -/
def glyphColor (idx col row : Nat) : UInt32 :=
  let srcRow := row * DOWNSCALE
  let srcCol := col * DOWNSCALE
  let byteIdx := srcRow * (g.font.glyphW / 8) + srcCol / 8
  let bitIdx := 7 - srcCol % 8
  let on := if byteIdx < g.font.glyphSize
    then ((g.font.glyph idx).getD byteIdx 0 >>> bitIdx.toUInt8) &&& 1 else 0
  if on ≠ 0 then FG else BG

/-- Store a pixel if it is visible. -/
def plot (px py : Nat) (color : UInt32) (fb : Nat → UInt32) : Nat → UInt32 :=
  if px < g.width ∧ py < g.height then store fb (py * g.fbWidth + px) color else fb

def drawGlyph (glyphIdx x y : Nat) (fb : Nat → UInt32) : Nat → UInt32 :=
  if g.font.glyphData.length < glyphIdx * g.font.glyphSize + g.font.glyphSize then fb
  else
    forRange (fun row => forRange (fun col => forRange (fun sy => forRange (fun sx =>
      g.plot (x + col * SCALE + sx) (y + row * SCALE + sy) (g.glyphColor glyphIdx col row))
        SCALE) SCALE) (g.font.glyphW / DOWNSCALE)) (g.font.glyphH / DOWNSCALE) fb

section

variable (d : FramebufferDisplay)

/-- The two rows of the cursor at `(x, y)`. -/
def fillCursor (x y : Nat) (color : UInt32) : (Nat → UInt32) → Nat → UInt32 :=
  let cursorH := 2
  forRange (fun dy => forRange (fun dx =>
    g.plot (x + dx) (y + g.charH - cursorH + dy) color) g.charW)
    (y + g.charH - (y + g.charH - cursorH))

/-- Erase the cursor at its position, if it is drawn. -/
def eraseCursor : FramebufferDisplay :=
  if d.cursorVisible then
    { d with fb := g.fillCursor d.cursorX d.cursorY BG d.fb, cursorVisible := false }
  else d

/-- Erase the cursor where it was drawn last, and draw it at its position. -/
def drawCursor : FramebufferDisplay :=
  let fb := if d.cursorVisible then g.fillCursor d.prevCursorX d.prevCursorY BG d.fb else d.fb
  { d with
    fb := g.fillCursor d.cursorX d.cursorY FG fb
    prevCursorX := d.cursorX, prevCursorY := d.cursorY, cursorVisible := true }

def scroll : FramebufferDisplay :=
  let rowBytes := g.charH * g.fbWidth
  let totalRows := g.height / g.charH
  -- `ptr::copy` of all but the first row of characters to the start
  let moved := fun i => if i < (totalRows - 1) * rowBytes then d.fb (i + rowBytes) else d.fb i
  let top := (totalRows - 1) * g.charH
  { d with
    fb := forRange (fun dy => forRange (fun x fb => store fb ((top + dy) * g.fbWidth + x) BG)
      g.width) (g.height - top) moved
    cursorY := d.cursorY - g.charH }

/-- The cursor one row down, scrolling when that row is not on the screen. -/
def nextRow : FramebufferDisplay :=
  let d := { d with cursorX := 0, cursorY := d.cursorY + g.charH }
  if g.height < d.cursorY + g.charH then g.scroll d else d

/-- Draw a character at the cursor. -/
def draw (c : UInt8) : FramebufferDisplay :=
  { d with fb := g.drawGlyph (g.font.glyphIndex c) d.cursorX d.cursorY d.fb }

/-- The cursor one column on, or to the next row at the right edge. -/
def advance : FramebufferDisplay :=
  let d := { d with cursorX := d.cursorX + g.charW }
  if g.width < d.cursorX + g.charW then g.nextRow d else d

def putchar (c : UInt8) : FramebufferDisplay :=
  let d := g.eraseCursor d
  if c = 0x0D then { d with cursorX := 0 }
  else if c = 0x0A then g.nextRow d
  else if c = 0x08 then
    g.draw (if g.charW ≤ d.cursorX then { d with cursorX := d.cursorX - g.charW } else d) 0x20
  else g.advance (g.draw d c)

def call : DisplayCall → FramebufferDisplay
  | .putchar c => g.putchar d c
  | .write s => s.foldl g.putchar d
  | .clear => d.clear
  | .showCursor => g.drawCursor d

/-- Row and column of the cell at the cursor. -/
def nextCell : Nat × Nat := (d.cursorY / g.charH, d.cursorX / g.charW)

end

/-- The text cell in row `r` and column `c` shows the character `ch`. -/
def Shows (fb : Nat → UInt32) (r c : Nat) (ch : UInt8) : Prop :=
  ∀ dx < g.charW, ∀ dy < g.charH, pixel g.fbWidth fb (c * g.charW + dx) (r * g.charH + dy) =
      g.glyphColor (g.font.glyphIndex ch) dx dy

end Panel

/-- A panel with room for its rows in the pitch, and a font like the embedded one: characters have
pixels, every byte has a glyph, and the glyph of the space is blank. -/
structure Screen extends Panel where
  width_le : width ≤ pitch / 4
  charW_pos : 0 < toPanel.charW
  charH_pos : 0 < toPanel.charH
  hasGlyph : ∀ c : UInt8,
    font.glyphIndex c * font.glyphSize + font.glyphSize ≤ font.glyphData.length
  spaceBlank : ∀ b ∈ font.glyph (font.glyphIndex 0x20), b = 0

/-! ## Cells and pixels -/

namespace Screen

open Panel

variable {g : Screen}

/-- The pixels of the cells are visible. -/
theorem cell_right (hc : c < g.cols) : c * g.charW + g.charW ≤ g.width := by
  have h := (Nat.le_div_iff_mul_le g.charW_pos).1 (Nat.succ_le_of_lt hc)
  rwa [Nat.succ_mul] at h

theorem cell_bottom (hr : r < g.rows) : r * g.charH + g.charH ≤ g.height := by
  have h := (Nat.le_div_iff_mul_le g.charH_pos).1 (Nat.succ_le_of_lt hr)
  rwa [Nat.succ_mul] at h

/-- The test for the right edge. -/
theorem width_lt_iff : g.width < c * g.charW + g.charW ↔ g.cols ≤ c := by
  rw [← Nat.succ_mul, ← Nat.div_lt_iff_lt_mul g.charW_pos]
  exact Nat.lt_succ_iff

/-- The test for the bottom edge. -/
theorem height_lt_iff : g.height < r * g.charH + g.charH ↔ g.rows ≤ r := by
  rw [← Nat.succ_mul, ← Nat.div_lt_iff_lt_mul g.charH_pos]
  exact Nat.lt_succ_iff

/-- The glyph of the space is drawn in the background colour. -/
theorem glyphColor_space (col row : Nat) : g.glyphColor (g.font.glyphIndex 0x20) col row = BG := by
  have hzero : ∀ i, (g.font.glyph (g.font.glyphIndex 0x20)).getD i 0 = 0 := by
    intro i
    rw [List.getD_eq_getElem?_getD]
    cases hi : (g.font.glyph (g.font.glyphIndex 0x20))[i]? with
    | none => rfl
    | some b => exact g.spaceBlank b (List.mem_of_getElem? hi)
  simp only [glyphColor, hzero]
  simp

/-- Drawing the glyph of a character changes its cell, and leaves the other cells alone. -/
theorem drawGlyph_shows {fb : Nat → UInt32} {r' c' : Nat} (ch ch' : UInt8) (hr : r < g.rows)
    (hc : c < g.cols) (hc' : c' < g.cols) (hold : ¬ (r' = r ∧ c' = c) → g.Shows fb r' c' ch') :
    g.Shows (g.drawGlyph (g.font.glyphIndex ch) (c * g.charW) (r * g.charH) fb) r' c'
      (if r' = r ∧ c' = c then ch else ch') := by
  intro dx hdx dy hdy
  have hwidth := g.width_le
  have hright := cell_right hc
  have hright' := cell_right hc'
  have hbottom := cell_bottom hr
  have hcharW : g.font.glyphW / DOWNSCALE = g.charW := by rw [charW, SCALE, Nat.mul_one]
  have hcharH : g.font.glyphH / DOWNSCALE = g.charH := by rw [charH, SCALE, Nat.mul_one]
  rw [drawGlyph, if_neg (Nat.not_lt.2 (g.hasGlyph ch)), hcharW, hcharH]
  rw [fillRect_pixel _ (fun dx dy => g.glyphColor (g.font.glyphIndex ch) dx dy)
    (x := c * g.charW) (y := r * g.charH) (by rw [fbWidth]; omega) _ _ (by rw [fbWidth]; omega)]
  · by_cases hsame : r' = r ∧ c' = c
    · obtain ⟨rfl, rfl⟩ := hsame
      rw [if_pos (by omega), if_pos ⟨rfl, rfl⟩, Nat.add_sub_cancel_left, Nat.add_sub_cancel_left]
    · have hapart : ¬ (c * g.charW ≤ c' * g.charW + dx ∧ c' * g.charW + dx < c * g.charW + g.charW ∧
          r * g.charH ≤ r' * g.charH + dy ∧ r' * g.charH + dy < r * g.charH + g.charH) := by
        rintro ⟨h1, h2, h3, h4⟩
        rw [← Nat.succ_mul, address_lt hdx] at h2
        rw [← Nat.succ_mul, address_lt hdy] at h4
        have h5 : c < c' + 1 := (address_lt g.charW_pos).1 (by rw [Nat.succ_mul]; omega)
        have h6 : r < r' + 1 := (address_lt g.charH_pos).1 (by rw [Nat.succ_mul]; omega)
        exact hsame ⟨by omega, by omega⟩
      rw [if_neg hapart, if_neg hsame]
      exact hold hsame dx hdx dy hdy
  · intro dx dy fb hdx hdy
    simp only [SCALE, forRange, Nat.mul_one, Nat.add_zero, plot]
    rw [if_pos ⟨by omega, by omega⟩]

/-- Scrolling: every row of cells shows what the next one showed, the last one is blank. -/
theorem scroll_shows {d : FramebufferDisplay} {ch : UInt8} (hr : r < g.rows)
    (hc : c < g.cols) (hnext : r + 1 < g.rows → g.Shows d.fb (r + 1) c ch) :
    g.Shows (g.scroll d).fb r c (if r + 1 < g.rows then ch else 0x20) := by
  intro dx hdx dy hdy
  have hwidth := g.width_le
  have hright := cell_right hc
  have hbottom := cell_bottom hr
  have hrows : g.height / g.charH = g.rows := rfl
  simp only [scroll, hrows]
  rw [fillRect_pixel _ (fun _ _ => BG) (x := 0) (y := (g.rows - 1) * g.charH)
    (by rw [Nat.zero_add]; exact g.width_le) _ _ (by rw [fbWidth]; omega)]
  · by_cases hlt : r + 1 < g.rows
    · have hbelow : r * g.charH + dy < (g.rows - 1) * g.charH := (address_lt hdy).2 (by omega)
      rw [if_neg (by omega), if_pos hlt, ← hnext hlt dx hdx dy hdy]
      simp only [pixel]
      rw [if_pos]
      · congr 1
        ring
      · rw [← Nat.mul_assoc]
        exact (address_lt (show c * g.charW + dx < g.fbWidth by rw [fbWidth]; omega)).2 hbelow
    · have hlast : r = g.rows - 1 := by omega
      rw [if_pos (by subst hlast; omega), if_neg hlt, glyphColor_space]
  · intro dx dy fb _ _
    rw [Nat.zero_add]

end Screen

end PlanckOS.Display
