import PlanckOS.Display.Framebuffer

/-!
# The framebuffer as a grid of characters

`TextGrid` is the framebuffer without its pixels: the characters of the cells, and the cell of the
cursor. A character in the last column moves the cursor to the next row at once, and a backspace
writes a space.

`Renders` relates a display to a grid: every cell shows its character, and the cursor is at its
cell. `Renders.putchar` says that the display goes on rendering what the grid does.
-/

set_option autoImplicit false

namespace PlanckOS.Display

structure TextGrid where
  cells : Nat → Nat → UInt8
  row : Nat
  col : Nat

namespace TextGrid

variable (t : TextGrid)

/-- Write a character at the cursor. -/
def put (c : UInt8) : TextGrid :=
  { t with cells := fun r k => if r = t.row ∧ k = t.col then c else t.cells r k }

/-- The cursor in the next row, after scrolling when there is none. -/
def nextRow (rows : Nat) : TextGrid :=
  if rows ≤ t.row + 1 then
    { t with cells := fun r k => if r + 1 < rows then t.cells (r + 1) k else 0x20, col := 0 }
  else { t with row := t.row + 1, col := 0 }

def putchar (cols rows : Nat) (c : UInt8) : TextGrid :=
  if c = 0x0D then { t with col := 0 }
  else if c = 0x0A then t.nextRow rows
  else if c = 0x08 then { t with col := t.col - 1 }.put 0x20
  else if cols ≤ t.col + 1 then (t.put c).nextRow rows
  else { t.put c with col := t.col + 1 }

end TextGrid

/-- The display shows the grid, with the cursor at its cell and not drawn. -/
structure Renders (g : Screen) (d : FramebufferDisplay) (t : TextGrid) : Prop where
  row_lt : t.row < g.rows
  col_lt : t.col < g.cols
  cells : ∀ r < g.rows, ∀ k < g.cols, g.Shows d.fb r k (t.cells r k)
  cursorY : d.cursorY = t.row * g.charH
  cursorX : d.cursorX = t.col * g.charW
  hidden : d.cursorVisible = false

section Rendering

variable {g : Screen} {d : FramebufferDisplay} {t : TextGrid}

theorem Renders.draw (h : Renders g d t) (c : UInt8) : Renders g (g.draw d c) (t.put c) where
  row_lt := h.row_lt
  col_lt := h.col_lt
  cells r hr k hk := by
    simp only [Panel.draw, h.cursorX, h.cursorY]
    exact Screen.drawGlyph_shows c (t.cells r k) h.row_lt h.col_lt hk fun _ => h.cells r hr k hk
  cursorY := h.cursorY
  cursorX := h.cursorX
  hidden := h.hidden

/-- Both go to the next row together and scroll together. -/
theorem Renders.nextRow (hrow : t.row < g.rows)
    (hcells : ∀ r < g.rows, ∀ k < g.cols, g.Shows d.fb r k (t.cells r k))
    (hy : d.cursorY = t.row * g.charH) (hcols : 0 < g.cols) (hd : d.cursorVisible = false) :
    Renders g (g.nextRow d) (t.nextRow g.rows) := by
  have hedge : g.height < d.cursorY + g.charH + g.charH ↔ g.rows ≤ t.row + 1 := by
    rw [hy, ← Nat.succ_mul, Screen.height_lt_iff]
  simp only [Panel.nextRow, TextGrid.nextRow]
  by_cases hlast : g.rows ≤ t.row + 1
  · rw [if_pos (hedge.2 hlast), if_pos hlast]
    refine ⟨hrow, hcols, fun r hr k hk => ?_, ?_, (Nat.zero_mul _).symm, hd⟩
    · exact Screen.scroll_shows hr hk fun hlt => hcells (r + 1) hlt k hk
    · exact (Nat.add_sub_cancel _ _).trans hy
  · rw [if_neg (mt hedge.1 hlast), if_neg hlast]
    refine ⟨Nat.not_le.1 hlast, hcols, hcells, ?_, (Nat.zero_mul _).symm, hd⟩
    exact (congrArg (· + g.charH) hy).trans (Nat.succ_mul _ _).symm

/-- **The framebuffer does what the grid does**, for every byte. -/
theorem Renders.putchar (h : Renders g d t) (c : UInt8) :
    Renders g (g.putchar d c) (t.putchar g.cols g.rows c) := by
  have hcols : 0 < g.cols := Nat.zero_lt_of_lt h.col_lt
  have herase : g.eraseCursor d = d := by
    rw [Panel.eraseCursor, h.hidden]
    rfl
  simp only [Panel.putchar, herase, TextGrid.putchar]
  split
  · exact ⟨h.row_lt, hcols, h.cells, h.cursorY, (Nat.zero_mul _).symm, h.hidden⟩
  split
  · exact .nextRow h.row_lt h.cells h.cursorY hcols h.hidden
  split
  · -- the cursor goes back by a cell, or stays at the left edge
    apply Renders.draw
    have hw := g.charW_pos
    have hin : t.col - 1 < g.cols := (Nat.sub_le _ _).trans_lt h.col_lt
    have hx := h.cursorX
    split
    next => exact ⟨h.row_lt, hin, h.cells, h.cursorY, by rw [Nat.sub_one_mul, ← hx], h.hidden⟩
    next hleft =>
      have hzero : t.col = 0 := by
        by_contra hpos
        exact hleft (hx ▸ Nat.le_mul_of_pos_left _ (Nat.pos_of_ne_zero hpos))
      exact ⟨h.row_lt, hin, h.cells, h.cursorY, by rw [hx, hzero], h.hidden⟩
  · have hdraw := h.draw c
    have hx : (g.draw d c).cursorX + g.charW = (t.col + 1) * g.charW := by
      rw [hdraw.cursorX, Nat.succ_mul]
      rfl
    have hedge : g.width < (g.draw d c).cursorX + g.charW + g.charW ↔ g.cols ≤ t.col + 1 := by
      rw [hx, Screen.width_lt_iff]
    simp only [Panel.advance]
    split
    next hend =>
      rw [if_pos (hedge.1 hend)]
      exact .nextRow hdraw.row_lt hdraw.cells hdraw.cursorY hcols hdraw.hidden
    next hend =>
      have hlt := Nat.not_le.1 (mt hedge.2 hend)
      rw [if_neg (Nat.not_le.2 hlt)]
      exact ⟨hdraw.row_lt, hlt, hdraw.cells, hdraw.cursorY, hx, hdraw.hidden⟩

/-- A cleared display shows blanks. -/
theorem renders_clear (hrows : 0 < g.rows) (hcols : 0 < g.cols) (hd : d.cursorVisible = false) :
    Renders g d.clear ⟨fun _ _ => 0x20, 0, 0⟩ where
  row_lt := hrows
  col_lt := hcols
  cells _ _ _ _ dx _ dy _ := (Screen.glyphColor_space dx dy).symm
  cursorY := (Nat.zero_mul _).symm
  cursorX := (Nat.zero_mul _).symm
  hidden := hd

/-- A sequence of bytes. -/
theorem Renders.run (h : Renders g d t) (bytes : List UInt8) :
    Renders g (bytes.foldl g.putchar d) (bytes.foldl (fun t => t.putchar g.cols g.rows) t) := by
  induction bytes generalizing d t with
  | nil => exact h
  | cons c bytes ih => exact ih (h.putchar c)

end Rendering

end PlanckOS.Display
