import PlanckOS.Shell.Editor
import PlanckOS.Display.Agreement
import PlanckOS.Lib.TextRow

/-!
# The line as `redraw_input` draws it

`redraw_input` clears the row, types the prompt and the line again, and moves the cursor back by
backspaces. It leaves out the last column when it clears. On the VGA display the line is shown
unless the one before reached that column. On the framebuffer a backspace writes a space, and a
character in the last column sends the cursor to the next row, so that only lines with the cursor at
their end, and not of full length, are shown as typed.

`redraw_shows_line_iff` has the exact condition for both, and what the pixels do.
-/

set_option autoImplicit false

namespace PlanckOS.Shell

open Display Lib.TextRow List

/-- The bytes of a call of the display. -/
def Call.bytes : Call → List UInt8
  | .putchar c => [c]
  | .write s => s.toUTF8.data.toList
  | .showCursor => []

/-- What `redraw_input` gives to the display. -/
def redrawBytes (cols : Nat) (s : Shell) (line : Line) : List UInt8 :=
  ((s.redrawInput cols line).display.drop s.display.length).flatMap Call.bytes

/-- The prompt. -/
def promptBytes : List UInt8 := [0x24, 0x20]

theorem redrawBytes_eq (cols : Nat) (s : Shell) (line : Line) : redrawBytes cols s line =
    (0x0D :: (promptBytes ++ replicate (cols - 3) 0x20) ++
      0x0D :: (promptBytes ++ line.buf.take line.len)) ++
      replicate (line.len - s.cursorPos) 0x08 := by
  have hbytes (l : List UInt8) : (l.map Call.putchar).flatMap Call.bytes = l := by
    rw [flatMap_map]
    exact flatMap_singleton' l
  have hprompt : Call.bytes (.write PROMPT) = promptBytes := by decide
  simp only [redrawBytes, redrawInput, draw, drop_left, flatMap_append, flatMap_cons,
    flatMap_nil, ← map_replicate, hbytes, hprompt]
  simp [Call.bytes, Nat.sub_sub]

/-! ## The two displays as rows of text -/

theorem vga_print (s : VgaDisplay) (c : UInt8) (hc : ¬ Control c) (hcol : s.col < WIDTH) :
    (s.putcharImpl c).row = s.row ∧ (s.putcharImpl c).col = s.col + 1 ∧
      ∀ r, ∀ k < WIDTH, (s.putcharImpl c).charAt r k =
        if r = s.row ∧ k = s.col then c else s.charAt r k := by
  rw [Control, not_or, not_or] at hc
  rw [VgaDisplay.putcharImpl, if_neg hc.1, if_neg hc.2.2, if_neg hc.2.1, if_neg (Nat.not_le.2 hcol)]
  exact ⟨rfl, rfl, fun r k hk => VgaDisplay.put_charAt c hcol hk⟩

theorem grid_print (cols rows : Nat) (t : TextGrid) (c : UInt8) (hc : ¬ Control c)
    (hcol : t.col < cols - 1) :
    (t.putchar cols rows c).row = t.row ∧ (t.putchar cols rows c).col = t.col + 1 ∧
      ∀ r, ∀ k < cols, (t.putchar cols rows c).cells r k =
        if r = t.row ∧ k = t.col then c else t.cells r k := by
  rw [Control, not_or, not_or] at hc
  rw [TextGrid.putchar, if_neg hc.2.2, if_neg hc.2.1, if_neg hc.1, if_neg (by omega)]
  exact ⟨rfl, rfl, fun r k _ => rfl⟩

/-- A row of the VGA display: the wrap comes with the next character. -/
def vgaRow : RowDisplay VgaDisplay where
  putchar := VgaDisplay.putcharImpl
  cell := VgaDisplay.charAt
  row := VgaDisplay.row
  col := VgaDisplay.col
  cols := WIDTH
  limit := WIDTH
  home _ := ⟨rfl, rfl, fun _ _ => rfl⟩
  print := vga_print

/-- A row of the framebuffer: the last column wraps at once. -/
def gridRow (cols rows : Nat) : RowDisplay TextGrid where
  putchar t := t.putchar cols rows
  cell := TextGrid.cells
  row := TextGrid.row
  col := TextGrid.col
  cols := cols
  limit := cols - 1
  home _ := ⟨rfl, rfl, fun _ _ => rfl⟩
  print := grid_print cols rows

/-- The row of the cursor shows the prompt and the line, no other row has changed, and the cursor is
behind the first `cursorPos` characters of the line. -/
def ShowsLine {σ : Type} (D : RowDisplay σ) (rows : Nat) (s s' : σ) (text : List UInt8)
    (cursorPos : Nat) : Prop :=
  (∀ k < D.cols, D.cell s' (D.row s) k = (promptBytes ++ text).getD k 0x20) ∧
    (∀ r < rows, r ≠ D.row s → ∀ k < D.cols, D.cell s' r k = D.cell s r k) ∧
    D.row s' = D.row s ∧ D.col s' = promptBytes.length + cursorPos

section Backspaces

variable {n : Nat}

theorem vga_backspaces (d : VgaDisplay) (hn : n ≤ d.col) :
    (replicate n 0x08).foldl vgaRow.putchar d = { d with col := d.col - n } := by
  induction n generalizing d with
  | zero => rfl
  | succ n ih =>
    have hstep : vgaRow.putchar d 0x08 = { d with col := d.col - 1 } :=
      if_pos (show 0 < d.col by omega)
    rw [replicate_succ, foldl_cons, hstep, ih _ (by dsimp only; omega), Nat.sub_sub, Nat.add_comm]

/-- Backspaces on the framebuffer, for the column and the cells that they go over. -/
theorem grid_backspaces (cols rows : Nat) (t : TextGrid) :
    let t' := (replicate n 0x08).foldl (gridRow cols rows).putchar t
    t'.row = t.row ∧ t'.col = t.col - n ∧ (n ≤ t.col → ∀ r k, t'.cells r k =
      if r = t.row ∧ t.col - n ≤ k ∧ k < t.col then 0x20 else t.cells r k) := by
  induction n generalizing t with
  | zero => exact ⟨rfl, rfl, fun _ r k => (if_neg (by omega)).symm⟩
  | succ n ih =>
    have hstep : (gridRow cols rows).putchar t 0x08 = { t with col := t.col - 1 }.put 0x20 := rfl
    obtain ⟨hrow, hcol, hcells⟩ := ih ({ t with col := t.col - 1 }.put 0x20)
    rw [replicate_succ, foldl_cons, hstep]
    refine ⟨hrow, hcol.trans (by simp only [TextGrid.put]; omega), fun hn r k => ?_⟩
    rw [hcells (by simp only [TextGrid.put]; omega) r k]
    simp only [TextGrid.put]
    split
    next h => rw [if_pos (by omega)]
    next h =>
      split
      next hnew => rw [if_pos (by omega)]
      next hnew => rw [if_neg (by omega)]

end Backspaces

/-! ## The line after it was drawn again -/

section Redraw

variable {s : Shell} {line : Line} {prev text : List UInt8}

theorem prompt_plain : ∀ c ∈ promptBytes, ¬ Control c := by
  simp [promptBytes, Control]

theorem shown_past {k : Nat} (h : text.length + 2 ≤ k) :
    (promptBytes ++ text).getD k 0x20 = 0x20 := by
  have hend : (promptBytes ++ text)[k]? = none := by
    apply getElem?_eq_none
    rw [length_append]
    exact (Nat.add_comm ..).trans_le h
  rw [getD_eq_getElem?_getD, hend]
  rfl

theorem shown_text {j : Nat} (h : j < text.length) :
    (promptBytes ++ text).getD (2 + j) 0x20 = text[j] := by
  have hj : 2 + j - promptBytes.length = j := Nat.add_sub_cancel_left 2 j
  rw [getD_eq_getElem?_getD, getElem?_append_right (Nat.le_add_right 2 j), hj,
    getElem?_eq_getElem h]
  rfl

/-- The line is shown when what was drawn over it are spaces, and when the last column is part of it
or was blank. -/
theorem showsLine_iff {σ : Type} {D : RowDisplay σ} {rows cp : Nat} {s s' : σ} {w : Nat → Prop}
    [DecidablePred w] (hlen : text.length + 2 ≤ D.cols)
    (hprev : ∀ k < D.cols, D.cell s (D.row s) k = (promptBytes ++ prev).getD k 0x20)
    (hw : ∀ k, w k → k < text.length + 2)
    (hcells : ∀ r, ∀ k < D.cols, D.cell s' r k = if r = D.row s ∧ w k then 0x20
      else if r = D.row s ∧
        (k < promptBytes.length + (D.cols - 3) ∨ k < promptBytes.length + text.length)
      then (promptBytes ++ text).getD k 0x20 else D.cell s r k)
    (hrow : D.row s' = D.row s) (hcol : D.col s' = promptBytes.length + cp) :
    ShowsLine D rows s s' text cp ↔ (∀ k, w k → (promptBytes ++ text).getD k 0x20 = 0x20) ∧
      (text.length + 2 = D.cols ∨ (promptBytes ++ prev).getD (D.cols - 1) 0x20 = 0x20) := by
  have hprompt : promptBytes.length = 2 := rfl
  constructor
  · intro h
    refine ⟨fun k hk => ?_, or_iff_not_imp_left.mpr fun hpart => ?_⟩
    · have hin := (hw k hk).trans_le hlen
      rw [← h.1 k hin, hcells _ k hin, if_pos ⟨rfl, hk⟩]
    · -- the last column is as it was
      have hlast : D.cols - 1 < D.cols := by omega
      have hend : (promptBytes ++ text).getD (D.cols - 1) 0x20 = 0x20 := shown_past (by omega)
      rw [← hprev _ hlast, ← hend, ← h.1 _ hlast,
        hcells _ _ hlast, if_neg fun hn => by have := hw _ hn.2; omega, if_neg (by omega)]
  · rintro ⟨hblank, hlast⟩
    refine ⟨fun k hk => ?_, fun r _ hr k hk => ?_, hrow, hcol⟩
    · rw [hcells _ k hk]
      split
      next hk' => exact (hblank k hk'.2).symm
      split
      next => rfl
      next hout =>
        obtain rfl : k = D.cols - 1 := by omega
        rw [hprev _ hk, hlast.resolve_left (by omega), shown_past (by omega)]
    · rw [hcells r k hk, if_neg fun h => hr h.1, if_neg fun h => hr h.1]

variable (hbuf : line.len ≤ line.buf.length) (hpos : s.cursorPos ≤ line.len)
  (htext : ∀ c ∈ line.buf.take line.len, ¬ Control c)

include hbuf hpos htext

theorem vga_redraw_iff (hlen : line.len + 2 ≤ WIDTH) (d : VgaDisplay)
    (hprev : ∀ k < WIDTH, d.charAt d.row k = (promptBytes ++ prev).getD k 0x20) :
    ShowsLine vgaRow HEIGHT d ((redrawBytes WIDTH s line).foldl vgaRow.putchar d)
        (line.buf.take line.len) s.cursorPos ↔
      line.len + 2 = WIDTH ∨ (promptBytes ++ prev).getD (WIDTH - 1) 0x20 = 0x20 := by
  have hsize : (line.buf.take line.len).length = line.len := length_take_of_le hbuf
  obtain ⟨hrow, hcol, hcells⟩ := vgaRow.retype_row (s := d) (m := WIDTH - 3) prompt_plain htext
    (show 2 + (WIDTH - 3) ≤ WIDTH by decide) (show 2 + _ ≤ WIDTH by omega)
  rw [redrawBytes_eq, foldl_append]
  generalize foldl vgaRow.putchar d _ = d₁ at hrow hcol hcells ⊢
  have hcol₁ : d₁.col = 2 + line.len := hsize ▸ hcol
  rw [vga_backspaces d₁ (by omega)]
  refine (showsLine_iff (w := fun _ => False) (hsize.symm ▸ hlen) hprev (fun _ => False.elim)
    (fun r k hk => ?_)
      (show vgaRow.row { d₁ with col := d₁.col - (line.len - s.cursorPos) } = _ from
      hrow) ?_).trans ?_
  · rw [if_neg fun h => h.2]
    exact hcells r k hk
  · change d₁.col - (line.len - s.cursorPos) = 2 + s.cursorPos
    omega
  · rw [hsize]
    exact and_iff_right fun _ => False.elim

/-- The framebuffer, for a line that does not fill its row. -/
theorem grid_redraw_iff {cols rows : Nat} (hlen : line.len + 2 < cols) (t : TextGrid)
    (hprev : ∀ k < cols, t.cells t.row k = (promptBytes ++ prev).getD k 0x20) :
    ShowsLine (gridRow cols rows) rows t
      ((redrawBytes cols s line).foldl (gridRow cols rows).putchar t)
        (line.buf.take line.len) s.cursorPos ↔
      (∀ j, s.cursorPos ≤ j → j < line.len → line.buf[j]? = some 0x20) ∧
        (promptBytes ++ prev).getD (cols - 1) 0x20 = 0x20 := by
  have hsize : (line.buf.take line.len).length = line.len := length_take_of_le hbuf
  have hprompt : promptBytes.length = 2 := rfl
  obtain ⟨hrow, hcol, hcells⟩ :=
    (gridRow cols rows).retype_row (s := t) (m := cols - 3) prompt_plain
    htext (show 2 + (cols - 3) ≤ cols - 1 by omega) (show 2 + _ ≤ cols - 1 by omega)
  rw [redrawBytes_eq, foldl_append]
  generalize foldl (gridRow cols rows).putchar t _ = t₁ at hrow hcol hcells ⊢
  have hcol₁ : t₁.col = 2 + line.len := hsize ▸ hcol
  obtain ⟨hrow', hcol', hcells'⟩ := grid_backspaces (n := line.len - s.cursorPos) cols rows t₁
  have hstart : t₁.col - (line.len - s.cursorPos) = 2 + s.cursorPos := by omega
  rw [hstart] at hcol' hcells'
  refine (showsLine_iff (w := fun k => 2 + s.cursorPos ≤ k ∧ k < 2 + line.len)
    (hsize.symm ▸ hlen.le) hprev (fun k hk => by omega) (fun r k hk => ?_) (hrow'.trans hrow)
    hcol').trans ?_
  · refine (hcells' (by omega) r k).trans ?_
    rw [hcol₁, show t₁.row = t.row from hrow]
    exact if_congr Iff.rfl rfl (hcells r k hk)
  · rw [hsize]
    refine and_congr ⟨fun h j hj hj' => ?_, fun h k hk => ?_⟩ (or_iff_right hlen.ne)
    · have hshown := h (2 + j) (by omega)
      rw [shown_text (hsize.symm ▸ hj'), getElem_take] at hshown
      rw [getElem?_eq_getElem (by omega), hshown]
    · obtain ⟨j, rfl⟩ := Nat.exists_eq_add_of_le (show 2 ≤ k by omega)
      rw [shown_text (by omega), getElem_take]
      exact Option.some.inj ((getElem?_eq_getElem _).symm.trans (h j (by omega) (by omega)))

omit hpos in
/-- A line that fills its row sends the cursor to the next one. -/
theorem grid_redraw_full {cols rows : Nat} (hlen : line.len + 2 = cols) (t : TextGrid) :
    ((redrawBytes cols s line).foldl (gridRow cols rows).putchar t).col = 0 := by
  have hsize : (line.buf.take line.len).length = line.len := length_take_of_le hbuf
  have hplain : ∀ c ∈ promptBytes ++ line.buf.take line.len, ¬ Control c := fun c hc =>
    (mem_append.mp hc).elim (prompt_plain c) (htext c)
  have hwidth : (promptBytes ++ line.buf.take line.len).length = cols := by
    rw [length_append, hsize, ← hlen, Nat.add_comm]
    rfl
  rw [redrawBytes_eq, foldl_append, foldl_append]
  generalize foldl (gridRow cols rows).putchar t _ = t₁
  -- the last character is the one that wraps
  obtain ⟨b, x, hb⟩ : ∃ b x, promptBytes ++ line.buf.take line.len = b ++ [x] :=
    ⟨_, _, (dropLast_append_getLast (cons_ne_nil _ _)).symm⟩
  rw [hb] at hplain hwidth ⊢
  rw [length_append, length_singleton] at hwidth
  obtain ⟨-, hcol, -⟩ := (gridRow cols rows).type_row (s := t₁)
    (fun c hc => hplain c (mem_append_left _ hc)) (show b.length ≤ cols - 1 by omega)
  rw [← cons_append, foldl_append]
  generalize foldl (gridRow cols rows).putchar t₁ _ = t₂ at hcol ⊢
  have hx := hplain x (mem_append_right _ mem_cons_self)
  rw [Control, not_or, not_or] at hx
  have hwrap : (gridRow cols rows).putchar t₂ x = (t₂.put x).nextRow rows := by
    change TextGrid.putchar t₂ cols rows x = _
    change t₂.col = b.length at hcol
    rw [TextGrid.putchar, if_neg hx.2.2, if_neg hx.2.1, if_neg hx.1, if_pos (by omega)]
  obtain ⟨-, hcol', -⟩ := grid_backspaces (n := line.len - s.cursorPos) cols rows
    ((t₂.put x).nextRow rows)
  have hzero : ((t₂.put x).nextRow rows).col = 0 := by
    rw [TextGrid.nextRow]
    split <;> rfl
  rw [hzero, Nat.zero_sub] at hcol'
  rw [foldl_cons, foldl_nil, hwrap]
  exact hcol'

end Redraw

/-- **When the redrawn line is what the user typed.** For a line that fits in the row, a cursor in
it and any line shown on the row before. The VGA display shows it unless the line before reached the
last column and this one does not. The framebuffer shows it when it does not fill the row, all
characters from the cursor on are spaces, and the line before did not reach the last column; and the
pixels show what the grid of characters says. -/
theorem redraw_shows_line_iff (s : Shell) (line : Line) (prev : List UInt8)
    (hbuf : line.len ≤ line.buf.length) (hpos : s.cursorPos ≤ line.len)
    (htext : ∀ c ∈ line.buf.take line.len, ¬ Control c) : (∀ d : VgaDisplay, line.len + 2 ≤ WIDTH →
      (∀ k < WIDTH, d.charAt d.row k = (promptBytes ++ prev).getD k 0x20) →
      (ShowsLine vgaRow HEIGHT d ((redrawBytes WIDTH s line).foldl VgaDisplay.putcharImpl d)
          (line.buf.take line.len) s.cursorPos ↔
        line.len + 2 = WIDTH ∨ (promptBytes ++ prev).getD (WIDTH - 1) 0x20 = 0x20)) ∧
    ∀ (g : Screen) (d : FramebufferDisplay) (t : TextGrid), Renders g d t → line.len + 2 ≤ g.cols →
      (∀ k < g.cols, t.cells t.row k = (promptBytes ++ prev).getD k 0x20) →
      let t' := (redrawBytes g.cols s line).foldl (fun t => t.putchar g.cols g.rows) t
      Renders g ((redrawBytes g.cols s line).foldl g.putchar d) t' ∧
        (ShowsLine (gridRow g.cols g.rows) g.rows t t' (line.buf.take line.len) s.cursorPos ↔
          line.len + 2 < g.cols ∧
          (∀ j, s.cursorPos ≤ j → j < line.len → line.buf[j]? = some 0x20) ∧
          (promptBytes ++ prev).getD (g.cols - 1) 0x20 = 0x20) := by
  refine ⟨fun d hlen hprev => vga_redraw_iff hbuf hpos htext hlen d hprev,
    fun g d t hd hlen hprev => ?_⟩
  refine ⟨hd.run _, ?_⟩
  rcases Nat.eq_or_lt_of_le hlen with hfull | hlt
  · refine iff_of_false (fun h => ?_) fun h => h.1.ne hfull
    have hzero : ((redrawBytes g.cols s line).foldl (gridRow g.cols g.rows).putchar t).col = 0 :=
      grid_redraw_full hbuf htext hfull t
    have hcol : 0 = 2 + s.cursorPos := hzero.symm.trans h.2.2.2
    omega
  · rw [and_iff_right hlt]
    exact grid_redraw_iff hbuf hpos htext hlt t hprev

/-- The grid with the prompt in its first row, and the framebuffer that shows it. -/
def promptGrid : TextGrid :=
  promptBytes.foldl (fun t => t.putchar 80 25) ⟨fun _ _ => 0x20, 0, 0⟩

def promptDisplay : FramebufferDisplay :=
  promptBytes.foldl sampleScreen.toScreen.putchar (.clear ⟨fun _ => 0, 0, 0, 0, 0, false⟩)

/-- The line `ab` with the cursor behind it, on both displays. -/
theorem redraw_shows_ab :
    ShowsLine vgaRow HEIGHT ⟨fun k => entry (promptBytes.getD k 0x20) COLOR, 2, 0⟩
      ((redrawBytes WIDTH { new with cursorPos := 2 } ⟨[0x61, 0x62], 2⟩).foldl
        VgaDisplay.putcharImpl
        ⟨fun k => entry (promptBytes.getD k 0x20) COLOR, 2, 0⟩) [0x61, 0x62] 2 ∧
    let bytes := redrawBytes 80 { new with cursorPos := 2 } ⟨[0x61, 0x62], 2⟩
    let t' := bytes.foldl (fun t => t.putchar 80 25) promptGrid
    Renders sampleScreen.toScreen (bytes.foldl sampleScreen.toScreen.putchar promptDisplay) t' ∧
      ShowsLine (gridRow 80 25) 25 promptGrid t' [0x61, 0x62] 2 := by
  obtain ⟨hvga, hfb⟩ := redraw_shows_line_iff { new with cursorPos := 2 } ⟨[0x61, 0x62], 2⟩ []
    (by decide) (by decide) (by simp [Control])
  have hrenders : Renders sampleScreen.toScreen promptDisplay promptGrid :=
    (renders_clear (by decide) (by decide) rfl).run promptBytes
  obtain ⟨hpixels, hiff⟩ := hfb _ _ _ hrenders (by decide) (by decide +kernel)
  exact ⟨(hvga _ (by decide) (by decide +kernel)).mpr (.inr (by decide)), hpixels,
    hiff.mpr ⟨by decide, by decide, by decide⟩⟩

/-- Where the line is not what was typed. On the VGA display, a line of 78 characters leaves its
last one behind when the next line is shorter. On the framebuffer, going back to the start of `ab`
erases it. -/
theorem redraw_leaves_and_erases : (let d : VgaDisplay :=
       ⟨fun k => entry ((promptBytes ++ replicate 78 0x61).getD k 0x20) COLOR, 80, 0⟩
     let d' :=
       (redrawBytes WIDTH { new with cursorPos := 1 } ⟨[0x62], 1⟩).foldl VgaDisplay.putcharImpl d
     d'.charAt 0 79 = 0x61) ∧
    (let t : TextGrid := ⟨fun _ k => promptBytes.getD k 0x20, 0, 2⟩
     let t' := (redrawBytes 80 new ⟨[0x61, 0x62], 2⟩).foldl (fun t => t.putchar 80 25) t
     t'.cells 0 2 = 0x20) := by
  decide +kernel

end PlanckOS.Shell
