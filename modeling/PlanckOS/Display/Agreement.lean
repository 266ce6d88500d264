import PlanckOS.Display.Vga
import PlanckOS.Display.TextGrid
import PlanckOS.Lib.Transition

/-!
# The two displays side by side

Both backends get the same bytes. `Agrees` is the simulation relation between them: every text cell
of the framebuffer shows the character in the VGA buffer, and the pixel cursor stands at the cell
that the VGA display writes to next, which is the first one of the next row when `COL` is 80.

The relation is kept by every byte that satisfies `Allowed`, and `backends_agree` follows for whole
runs. Each restriction is a place where the backends part. A backspace only moves the VGA cursor,
while the framebuffer also draws a space over the cell. With the cursor behind a full row, the
framebuffer is on the next row already, so a newline, a carriage return and a backspace count from
there. And a character in the last cell scrolls the framebuffer at once.
-/

set_option autoImplicit false

namespace PlanckOS.Display

open Lib.Transition

/-- A framebuffer with the text grid of the VGA display. -/
structure TextScreen extends Screen where
  cols_eq : toScreen.cols = WIDTH
  rows_eq : toScreen.rows = HEIGHT

/-- The two displays. -/
structure Displays where
  vga : VgaDisplay
  fb : FramebufferDisplay

namespace Displays

/-- `putchar` on both. -/
def putchar (g : TextScreen) (s : Displays) (c : UInt8) : Displays :=
  ⟨s.vga.putcharImpl c, g.toScreen.putchar s.fb c⟩

/-- Both cleared, with no cursor drawn. -/
def Cleared (s : Displays) : Prop :=
  ∃ (v : VgaDisplay) (d : FramebufferDisplay), d.cursorVisible = false ∧ s = ⟨v.clearImpl, d.clear⟩

/-- The bytes on which the backends do the same: control characters not behind a full row, a
backspace only onto a blank cell, and other characters not in the last cell of the screen. -/
def Allowed (s : Displays) (c : UInt8) : Prop :=
  if c = 0x08 then s.vga.col < WIDTH ∧ s.vga.charAt s.vga.row (s.vga.col - 1) = 0x20
  else if c = 0x0D ∨ c = 0x0A then s.vga.col < WIDTH
  else s.vga.nextCell ≠ (HEIGHT - 1, WIDTH - 1)
  deriving Decidable

/-- States reached from cleared displays by allowed bytes. -/
abbrev Reachable (g : TextScreen) : Displays → Prop :=
  Reach Cleared Allowed fun s c s' => some (s.putchar g c) = some s'

end Displays

/-! ## The simulation -/

/-- The displays show the same text and write to the same cell next. -/
structure Agrees (g : TextScreen) (v : VgaDisplay) (d : FramebufferDisplay) : Prop where
  row_lt : v.row < HEIGHT
  col_le : v.col ≤ WIDTH
  pending : v.col = WIDTH → v.row + 1 < HEIGHT
  cells : ∀ r < HEIGHT, ∀ c < WIDTH, g.Shows d.fb r c (v.charAt r c)
  cursorY : d.cursorY = v.nextCell.1 * g.charH
  cursorX : d.cursorX = v.nextCell.2 * g.charW
  hidden : d.cursorVisible = false

section Simulation

variable {g : TextScreen} {v : VgaDisplay} {d : FramebufferDisplay}

/-- The text of the VGA display, with the cursor at the cell that is written to next. -/
def VgaDisplay.grid (v : VgaDisplay) : TextGrid := ⟨v.charAt, v.nextCell.1, v.nextCell.2⟩

theorem Agrees.nextCell_lt (h : Agrees g v d) : v.nextCell.1 < HEIGHT ∧ v.nextCell.2 < WIDTH := by
  by_cases hfull : v.col = WIDTH
  · rw [VgaDisplay.nextCell_of_full hfull.ge (h.pending hfull)]
    exact ⟨h.pending hfull, VgaDisplay.width_pos⟩
  · have hcol := Nat.lt_of_le_of_ne h.col_le hfull
    rw [VgaDisplay.nextCell_of_lt hcol]
    exact ⟨h.row_lt, hcol⟩

theorem Agrees.renders (h : Agrees g v d) : Renders g.toScreen d v.grid where
  row_lt := g.rows_eq ▸ h.nextCell_lt.1
  col_lt := g.cols_eq ▸ h.nextCell_lt.2
  cells r hr c hc := h.cells r (g.rows_eq ▸ hr) c (g.cols_eq ▸ hc)
  cursorY := h.cursorY
  cursorX := h.cursorX
  hidden := h.hidden

/-- The VGA display and a grid show the same text and write to the same cell next. -/
structure SameText (v : VgaDisplay) (t : TextGrid) : Prop where
  row_lt : v.row < HEIGHT
  col_le : v.col ≤ WIDTH
  pending : v.col = WIDTH → v.row + 1 < HEIGHT
  cells : ∀ r < HEIGHT, ∀ c < WIDTH, t.cells r c = v.charAt r c
  cell : v.nextCell = (t.row, t.col)

theorem SameText.agrees {t : TextGrid} (h : SameText v t) (hd : Renders g.toScreen d t) :
    Agrees g v d where
  row_lt := h.row_lt
  col_le := h.col_le
  pending := h.pending
  cells r hr c hc := h.cells r hr c hc ▸ hd.cells r (g.rows_eq ▸ hr) c (g.cols_eq ▸ hc)
  cursorY := h.cell ▸ hd.cursorY
  cursorX := h.cell ▸ hd.cursorX
  hidden := hd.hidden

/-- `SameText` for a cursor inside a row. -/
theorem SameText.of_cell {t : TextGrid} (hrow : v.row < HEIGHT) (hcol : v.col < WIDTH)
    (hcells : ∀ r < HEIGHT, ∀ c < WIDTH, t.cells r c = v.charAt r c)
    (hcell : (v.row, v.col) = (t.row, t.col)) :
    SameText v t :=
  ⟨hrow, Nat.le_of_lt hcol, fun hfull => absurd hfull (Nat.ne_of_lt hcol), hcells,
    (VgaDisplay.nextCell_of_lt hcol).trans hcell⟩

theorem agrees_clear (hd : d.cursorVisible = false) : Agrees g v.clearImpl d.clear := by
  have hsame : SameText v.clearImpl ⟨fun _ _ => 0x20, 0, 0⟩ :=
    .of_cell VgaDisplay.height_pos VgaDisplay.width_pos
      (fun _ hr _ hc => (VgaDisplay.clearImpl_charAt hr hc).symm) rfl
  refine hsame.agrees (renders_clear ?_ ?_ hd)
  · exact g.rows_eq ▸ VgaDisplay.height_pos
  · exact g.cols_eq ▸ VgaDisplay.width_pos

/-- Both go to the next row together and scroll together. -/
theorem newline_sameText (hrow : v.row < HEIGHT) (hcol : v.col < WIDTH) :
    SameText v.nextRow (v.grid.nextRow HEIGHT) := by
  rw [TextGrid.nextRow, VgaDisplay.grid, VgaDisplay.nextCell_of_lt hcol]
  dsimp only
  by_cases hlast : HEIGHT ≤ v.row + 1
  · rw [if_pos hlast, VgaDisplay.nextRow]
    dsimp only
    rw [if_pos hlast]
    refine .of_cell VgaDisplay.lastRow_lt VgaDisplay.width_pos (fun r hr c hc => ?_)
      (Prod.ext (show HEIGHT - 1 = v.row by omega) rfl)
    exact (VgaDisplay.scrollImpl_charAt (d := { v with col := 0, row := v.row + 1 }) hr hc).symm
  · rw [if_neg hlast, VgaDisplay.nextRow_of_lt (Nat.not_le.1 hlast)]
    exact .of_cell (Nat.not_le.1 hlast) VgaDisplay.width_pos (fun _ _ _ _ => rfl) rfl

/-- A character that is not in the last cell: at the end of a row the grid moves on, and the VGA
display waits. -/
theorem print_sameText (hrow : v.row < HEIGHT) (hcol : v.col < WIDTH)
    (hlast : (v.row, v.col) ≠ (HEIGHT - 1, WIDTH - 1)) (ch : UInt8) :
    SameText (v.put ch) (if WIDTH ≤ v.grid.col + 1 then (v.grid.put ch).nextRow HEIGHT
      else { v.grid.put ch with col := v.grid.col + 1 }) := by
  have hcells : ∀ r < HEIGHT, ∀ c < WIDTH, (v.grid.put ch).cells r c = (v.put ch).charAt r c := by
    intro r _ c hc
    rw [VgaDisplay.put_charAt ch hcol hc, TextGrid.put, VgaDisplay.grid,
      VgaDisplay.nextCell_of_lt hcol]
  have hgrid : (v.grid.put ch).row = v.row ∧ v.grid.col = v.col := by
    rw [TextGrid.put, VgaDisplay.grid, VgaDisplay.nextCell_of_lt hcol]
    exact ⟨rfl, rfl⟩
  rw [hgrid.2]
  split
  next hend =>
    have hbelow : v.row + 1 < HEIGHT := by
      by_contra hge
      exact hlast (Prod.ext (show v.row = HEIGHT - 1 by omega) (show v.col = WIDTH - 1 by omega))
    rw [TextGrid.nextRow, if_neg (by omega)]
    refine ⟨hrow, hcol, fun _ => hbelow, hcells, ?_⟩
    rw [VgaDisplay.nextCell_of_full (d := v.put ch) hend hbelow, hgrid.1]
    rfl
  next hend =>
    exact .of_cell hrow (Nat.not_le.1 hend) hcells (Prod.ext hgrid.1.symm rfl)

/-- Behind a full row, the late wrap of the VGA display comes before the next character. -/
theorem Agrees.wrap (h : Agrees g v d) (hfull : WIDTH ≤ v.col) :
    v.nextRow.row < HEIGHT ∧ v.nextRow.col < WIDTH ∧ v.nextRow.grid = v.grid := by
  have hpending := h.pending (Nat.le_antisymm h.col_le hfull)
  have hcell := VgaDisplay.nextCell_of_full hfull hpending
  rw [VgaDisplay.nextRow_of_lt hpending, VgaDisplay.grid, VgaDisplay.grid, hcell,
    VgaDisplay.nextCell_of_lt VgaDisplay.width_pos]
  exact ⟨hpending, VgaDisplay.width_pos, rfl⟩

/-- One byte. -/
theorem Agrees.putchar (h : Agrees g v d) {c : UInt8} (hok : Displays.Allowed ⟨v, d⟩ c) :
    Agrees g (v.putcharImpl c) (g.toScreen.putchar d c) := by
  refine SameText.agrees ?_ (h.renders.putchar c)
  rw [g.cols_eq, g.rows_eq, TextGrid.putchar, VgaDisplay.putcharImpl]
  rw [Displays.Allowed] at hok
  by_cases hback : c = 0x08
  · subst hback
    obtain ⟨hcol, hblank⟩ := hok
    have hcell := VgaDisplay.nextCell_of_lt hcol
    have hret : ¬ (0x08 : UInt8) = 0x0D := by decide
    have hnl : ¬ (0x08 : UInt8) = 0x0A := by decide
    rw [if_pos rfl, if_neg hret, if_neg hnl, if_pos rfl]
    have hsame : (if 0 < v.col then { v with col := v.col - 1 } else v) =
        { v with col := v.col - 1 } := by
      split
      · rfl
      · rw [show v.col - 1 = v.col by omega]
    rw [hsame]
    refine .of_cell h.row_lt ((Nat.sub_le _ _).trans_lt hcol) (fun r _ c _ => ?_) ?_
    · simp only [TextGrid.put, VgaDisplay.grid, hcell]
      split
      next hrc => rw [hrc.1, hrc.2, VgaDisplay.charAt]; exact hblank.symm
      next => rfl
    · rw [TextGrid.put, VgaDisplay.grid, hcell]
  rw [if_neg hback] at hok
  rw [if_neg hback]
  by_cases hret : c = 0x0D
  · rw [if_pos (Or.inl hret)] at hok
    rw [if_pos hret, if_pos hret, VgaDisplay.grid, VgaDisplay.nextCell_of_lt hok]
    exact .of_cell h.row_lt VgaDisplay.width_pos (fun _ _ _ _ => rfl) rfl
  rw [if_neg hret, if_neg hret]
  by_cases hnl : c = 0x0A
  · rw [if_pos (Or.inr hnl)] at hok
    rw [if_pos hnl, if_pos hnl]
    exact newline_sameText h.row_lt hok
  rw [if_neg (by tauto)] at hok
  rw [if_neg hnl, if_neg hnl, if_neg hback]
  by_cases hfull : WIDTH ≤ v.col
  · obtain ⟨hrow, hcol, hgrid⟩ := h.wrap hfull
    rw [if_pos hfull, ← hgrid]
    refine print_sameText hrow hcol ?_ c
    rwa [← VgaDisplay.nextCell_of_lt hcol, show v.nextRow.nextCell = v.nextCell from
      congrArg (fun t : TextGrid => (t.row, t.col)) hgrid]
  · rw [if_neg hfull]
    refine print_sameText h.row_lt (Nat.not_le.1 hfull) ?_ c
    rwa [← VgaDisplay.nextCell_of_lt (Nat.not_le.1 hfull)]

end Simulation

theorem agrees_of_reachable {g : TextScreen} {s : Displays} (h : s.Reachable g) :
    Agrees g s.vga s.fb := by
  refine Reach.invariant (P := fun s => Agrees g s.vga s.fb) ?_ ?_ h
  · rintro _ ⟨v, d, hd, rfl⟩
    exact agrees_clear hd
  · rintro s c _ hs hok hstep
    rw [← Option.some.inj hstep]
    exact hs.putchar hok

/-- **The backends agree.** On a framebuffer with the text grid of the VGA display, after every run
of allowed bytes from cleared displays, every text cell shows the character of the VGA buffer, and
the cell for the next printable character is the same. -/
theorem backends_agree (g : TextScreen) (s : Displays) (h : s.Reachable g) :
    (∀ r < HEIGHT, ∀ c < WIDTH, g.Shows s.fb.fb r c (s.vga.charAt r c)) ∧
      g.toScreen.nextCell s.fb = s.vga.nextCell := by
  have hagree := agrees_of_reachable h
  refine ⟨hagree.cells, ?_⟩
  rw [Panel.nextCell, hagree.cursorY, hagree.cursorX, Nat.mul_div_cancel _ g.charH_pos,
    Nat.mul_div_cancel _ g.charW_pos]

/-! ## A small screen -/

/-- 256 glyphs of 8 × 2 pixels, filled except for the space. -/
def sampleFontData : FontData where
  glyphW := 8
  glyphH := 2
  glyphCount := 256
  glyphData := (List.range 512).map fun i => if i / 2 = 0x20 then 0 else 0xFF
  unicode := none

theorem sample_hasGlyph (c : UInt8) : sampleFontData.glyphIndex c * sampleFontData.glyphSize +
    sampleFontData.glyphSize ≤ sampleFontData.glyphData.length := by
  have hc : c.toNat < 256 := c.toNat_lt
  have hidx : sampleFontData.glyphIndex c = c.toNat := if_pos hc
  have hsize : sampleFontData.glyphSize = 2 := rfl
  have hlen : sampleFontData.glyphData.length = 512 := by simp [sampleFontData]
  rw [hidx, hsize, hlen]
  omega

theorem sample_spaceBlank : ∀ b ∈ sampleFontData.glyph (sampleFontData.glyphIndex 0x20), b = 0 := by
  decide +kernel

/-- 320 × 25 pixels, that is 80 × 25 characters. -/
def sampleScreen : TextScreen where
  font := sampleFontData
  width := 320
  height := 25
  pitch := 1280
  width_le := by decide
  charW_pos := by decide
  charH_pos := by decide
  hasGlyph := sample_hasGlyph
  spaceBlank := sample_spaceBlank
  cols_eq := rfl
  rows_eq := rfl

/-- Both displays, cleared. -/
def sampleDisplays : Displays :=
  ⟨VgaDisplay.clearImpl ⟨fun _ => 0, 0, 0⟩,
    FramebufferDisplay.clear ⟨fun _ => 0, 0, 0, 0, 0, false⟩⟩

theorem sample_cleared : sampleDisplays.Cleared := ⟨_, _, rfl, rfl⟩

/-- `hi`, a newline, and a backspace onto the blank cell there. -/
theorem backends_agree_sample : ∃ s,
    runAllowed Displays.Allowed (fun s c => some (s.putchar sampleScreen c)) sampleDisplays
      [0x68, 0x69, 0x0A, 0x08] = some s ∧
    (∀ r < HEIGHT, ∀ c < WIDTH, sampleScreen.Shows s.fb.fb r c (s.vga.charAt r c)) ∧
      sampleScreen.toScreen.nextCell s.fb = s.vga.nextCell := by
  obtain ⟨s, hs⟩ : ∃ s, runAllowed Displays.Allowed (fun s c => some (s.putchar sampleScreen c))
      sampleDisplays [0x68, 0x69, 0x0A, 0x08] = some s := by decide +kernel
  exact ⟨s, hs, backends_agree sampleScreen s (Reach.of_runAllowed (.init sample_cleared) hs)⟩

/-- Where the backends part. After `a` and a backspace, the VGA display still shows the `a`; after a
full row and a newline, the framebuffer has left a row empty; and after a character in the last cell
the framebuffer has scrolled. -/
theorem backends_part :
    (∃ s, [0x61, 0x08].foldl (Displays.putchar sampleScreen) sampleDisplays = s ∧
      s.vga.charAt 0 0 = 0x61 ∧ ¬ sampleScreen.Shows s.fb.fb 0 0 0x61) ∧
    (∃ s, (List.replicate 80 (0x61 : UInt8) ++ [0x0A]).foldl (Displays.putchar sampleScreen)
        sampleDisplays
        = s ∧
      s.vga.nextCell = (1, 0) ∧ sampleScreen.toScreen.nextCell s.fb = (2, 0)) ∧
    (∃ s, (List.replicate 24 (0x0A : UInt8) ++ List.replicate 80 0x61).foldl
        (Displays.putchar sampleScreen) sampleDisplays = s ∧
      s.vga.charAt 23 0 = 0x20 ∧ ¬ sampleScreen.Shows s.fb.fb 23 0 0x20) := by
  refine ⟨⟨_, rfl, by decide +kernel, ?_⟩, ⟨_, rfl, by decide +kernel, by decide +kernel⟩,
    ⟨_, rfl, by decide +kernel, ?_⟩⟩
  · intro hshows
    have hpixel := hshows 0 (by decide) 0 (by decide)
    revert hpixel
    decide +kernel
  · intro hshows
    have hpixel := hshows 0 (by decide) 0 (by decide)
    revert hpixel
    decide +kernel

end PlanckOS.Display
