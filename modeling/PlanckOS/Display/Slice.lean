import PlanckOS.Display.Framebuffer
import PlanckOS.Lib.Transition

/-!
# The framebuffer as a slice of memory

`FramebufferDisplay` writes to a slice of `height * pitch / 4` words. Here every access is checked:
`none` is an index past the end of the slice, or a block copy that leaves it. Nothing is assumed of
the font but its size.

`FbSlice.raster` reads the slice as the raster of `PlanckOS.Display.Framebuffer`. Every operation
succeeds and does there what the raster's operation does (`Implements`), so `output_is_raster`: the
two models show the same pixels after every sequence of calls. `output_stays_on_screen`: no sequence
of calls fails, and the cursor stays on whole character cells inside of the screen, also when the
screen is no multiple of the cell.
-/

set_option autoImplicit false

namespace PlanckOS.Display

open Lib.Raster Lib.Transition List

/-! ## Model -/

/-- The slice, the cursor, where it was drawn last, and whether it is drawn. -/
structure FbSlice where
  fb : List UInt32
  cursorX : Nat
  cursorY : Nat
  prevCursorX : Nat
  prevCursorY : Nat
  cursorVisible : Bool

/-- `self.fb[i] = color`. -/
def storeAt (i : Nat) (color : UInt32) (fb : List UInt32) : Option (List UInt32) :=
  if i < fb.length then some (fb.set i color) else none

/-- `for i in lo..hi`. -/
def forIn (lo hi : Nat) (body : Nat → List UInt32 → Option (List UInt32)) (fb : List UInt32) :
    Option (List UInt32) :=
  (range' lo (hi - lo)).foldlM (fun fb i => body i fb) fb

/-- `ptr::copy` of `count` words from `src` on to the start. -/
def copyDown (src count : Nat) (fb : List UInt32) : Option (List UInt32) :=
  if src + count ≤ fb.length then some ((fb.drop src).take count ++ fb.drop count) else none

namespace FbSlice

def clear (d : FbSlice) : FbSlice :=
  { d with fb := d.fb.map fun _ => BG, cursorX := 0, cursorY := 0 }

variable (p : Panel)

/-- Store a pixel if it is visible. -/
def plot (px py : Nat) (color : UInt32) (fb : List UInt32) : Option (List UInt32) :=
  if px < p.width ∧ py < p.height then storeAt (py * p.fbWidth + px) color fb else some fb

def drawGlyph (glyphIdx x y : Nat) (fb : List UInt32) : Option (List UInt32) :=
  if p.font.glyphData.length < glyphIdx * p.font.glyphSize + p.font.glyphSize then some fb
  else
    forIn 0 (p.font.glyphH / DOWNSCALE) (fun row => forIn 0 (p.font.glyphW / DOWNSCALE) fun col =>
      forIn 0 SCALE fun sy => forIn 0 SCALE fun sx =>
        plot p (x + col * SCALE + sx) (y + row * SCALE + sy) (p.glyphColor glyphIdx col row)) fb

/-- The two rows of the cursor at `(x, y)`. -/
def fillCursor (x y : Nat) (color : UInt32) (fb : List UInt32) : Option (List UInt32) :=
  let cursorH := 2
  forIn (y + p.charH - cursorH) (y + p.charH) (fun y => forIn x (x + p.charW) fun x =>
    plot p x y color) fb

/-- Erase the cursor at `(x, y)`, if it is drawn. -/
def eraseCursor (visible : Bool) (x y : Nat) (fb : List UInt32) : Option (List UInt32) :=
  if visible then fillCursor p x y BG fb else some fb

def drawCursor (d : FbSlice) : Option FbSlice := do
  let fb ← eraseCursor p d.cursorVisible d.prevCursorX d.prevCursorY d.fb
  let fb ← fillCursor p d.cursorX d.cursorY FG fb
  pure { d with
    fb := fb, prevCursorX := d.cursorX, prevCursorY := d.cursorY, cursorVisible := true }

def scroll (d : FbSlice) : Option FbSlice := do
  let rowBytes := p.charH * p.fbWidth
  let totalRows := p.height / p.charH
  let fb ← copyDown rowBytes ((totalRows - 1) * rowBytes) d.fb
  let fb ← forIn ((totalRows - 1) * p.charH) p.height (fun y => forIn 0 p.width fun x =>
    storeAt (y * p.fbWidth + x) BG) fb
  pure { d with fb := fb, cursorY := if 0 < d.cursorY then d.cursorY - p.charH else d.cursorY }

/-- The cursor one row down, scrolling when that row is not on the screen. -/
def nextRow (d : FbSlice) : Option FbSlice :=
  let d := { d with cursorX := 0, cursorY := d.cursorY + p.charH }
  if p.height < d.cursorY + p.charH then scroll p d else some d

def putchar (d : FbSlice) (c : UInt8) : Option FbSlice := do
  let fb ← eraseCursor p d.cursorVisible d.cursorX d.cursorY d.fb
  let d := { d with fb := fb, cursorVisible := false }
  if c = 0x0D then pure { d with cursorX := 0 }
  else if c = 0x0A then nextRow p d
  else if c = 0x08 then do
    let x := if p.charW ≤ d.cursorX then d.cursorX - p.charW else d.cursorX
    let fb ← drawGlyph p (p.font.glyphIndex 0x20) x d.cursorY d.fb
    pure { d with fb := fb, cursorX := x }
  else do
    let fb ← drawGlyph p (p.font.glyphIndex c) d.cursorX d.cursorY d.fb
    let d := { d with fb := fb, cursorX := d.cursorX + p.charW }
    if p.width < d.cursorX + p.charW then nextRow p d else pure d

def call (d : FbSlice) : DisplayCall → Option FbSlice
  | .putchar c => putchar p d c
  | .write s => runSteps (putchar p) d s
  | .clear => some d.clear
  | .showCursor => drawCursor p d

/-- `new`, with the memory that it finds. -/
def new (mem : List UInt32) : FbSlice :=
  clear ⟨mem.take (p.height * p.pitch / 4), 0, 0, 0, 0, false⟩

end FbSlice

/-! ## The slice as a raster -/

/-- The words of the slice, with background behind its end. -/
def words (fb : List UInt32) (i : Nat) : UInt32 := fb.getD i BG

def FbSlice.raster (d : FbSlice) : FramebufferDisplay :=
  ⟨words d.fb, d.cursorX, d.cursorY, d.prevCursorX, d.prevCursorY, d.cursorVisible⟩

/-- An operation on slices of `n` words does not fail, and does to the words what `f` does. -/
def Implements (n : Nat) (op : List UInt32 → Option (List UInt32))
    (f : (Nat → UInt32) → Nat → UInt32) : Prop :=
  ∀ fb, fb.length = n → ∃ fb', op fb = some fb' ∧ fb'.length = n ∧ words fb' = f (words fb)

section Memory

variable {n : Nat}

theorem implements_id : Implements n some id := fun fb h => ⟨fb, rfl, h, rfl⟩

theorem storeAt_implements {i : Nat} (hi : i < n) (color : UInt32) :
    Implements n (storeAt i color) fun m => store m i color := by
  intro fb h
  refine ⟨_, if_pos (h ▸ hi), length_set.trans h, funext fun j => ?_⟩
  show (fb.set i color).getD j BG = store (words fb) i color j
  rw [store, words, getD_eq_getElem?_getD, getElem?_set, h]
  by_cases hj : i = j
  · rw [if_pos hj, if_pos hi, if_pos hj.symm]
    rfl
  · rw [if_neg hj, if_neg (Ne.symm hj), getD_eq_getElem?_getD]

theorem copyDown_implements {src count : Nat} (hcopy : src + count ≤ n) :
    Implements n (copyDown src count) fun m i => if i < count then m (i + src) else m i := by
  intro fb h
  have hlen : ((fb.drop src).take count).length = count := by
    rw [length_take, length_drop]
    omega
  refine ⟨_, if_pos (h ▸ hcopy), ?_, funext fun i => ?_⟩
  · rw [length_append, hlen, length_drop]
    omega
  · rw [words, getD_eq_getElem?_getD]
    dsimp only
    split
    next hi =>
      rw [getElem?_append_left (hlen.symm ▸ hi), getElem?_take_of_lt hi, getElem?_drop,
        Nat.add_comm, words, getD_eq_getElem?_getD]
    next hi =>
      rw [getElem?_append_right (hlen.symm ▸ Nat.not_lt.mp hi), hlen, getElem?_drop,
        Nat.add_sub_cancel' (Nat.not_lt.mp hi), words, getD_eq_getElem?_getD]

/-- A loop whose rounds do what those of a counted loop do. -/
theorem forIn_implements {lo hi : Nat} {body : Nat → List UInt32 → Option (List UInt32)}
    {f : Nat → (Nat → UInt32) → Nat → UInt32}
    (hbody : ∀ i, lo + i < hi → Implements n (body (lo + i)) (f i)) :
    Implements n (forIn lo hi body) (forRange f (hi - lo)) := by
  intro fb h
  have hrounds : ∀ k ≤ hi - lo, ∃ fb', (range' lo k).foldlM (fun fb i => body i fb) fb = some fb' ∧
      fb'.length = n ∧ words fb' = forRange f k (words fb) := by
    intro k hk
    induction k with
    | zero => exact ⟨fb, rfl, h, rfl⟩
    | succ k ih =>
      obtain ⟨fb₁, hrun, h₁, hw₁⟩ := ih (Nat.le_of_succ_le hk)
      obtain ⟨fb₂, hlast, h₂, hw₂⟩ := hbody k (by omega) fb₁ h₁
      refine ⟨fb₂, ?_, h₂, by rw [hw₂, hw₁, forRange]⟩
      rw [range'_concat, foldlM_append, hrun, Nat.one_mul]
      exact (bind_pure _).trans hlast
  exact hrounds _ (Nat.le_refl _)

end Memory

/-- The screen has room for a character of 16 × 32 pixels, and its rows fit in the pitch. -/
structure Panel.Fits (p : Panel) : Prop where
  glyphW : p.font.glyphW = 32
  glyphH : p.font.glyphH = 64
  width : 16 ≤ p.width
  height : 32 ≤ p.height
  pitch : 4 * p.width ≤ p.pitch

/-- The cursor is on a cell of the screen, and the slice has its length. -/
structure OnScreen (p : Panel) (d : FbSlice) : Prop where
  length : d.fb.length = p.height * p.pitch / 4
  cellX : d.cursorX % 16 = 0
  right : d.cursorX + 16 ≤ p.width
  cellY : d.cursorY % 32 = 0
  bottom : d.cursorY + 32 ≤ p.height

section Bounds

variable {p : Panel} {d : FbSlice} {fb : List UInt32}

theorem Panel.Fits.charSize (h : p.Fits) : p.charW = 16 ∧ p.charH = 32 := by
  rw [charW, charH, h.glyphW, h.glyphH]
  decide

/-- The rows of the screen lie in the slice. -/
theorem rows_fit (p : Panel) : p.height * p.fbWidth ≤ p.height * p.pitch / 4 :=
  Nat.mul_div_le_mul_div_assoc _ _ _

variable (hp : p.Fits)
include hp

theorem pixel_implements {x y : Nat} (hx : x < p.width) (hy : y < p.height) (color : UInt32) :
    Implements (p.height * p.pitch / 4) (storeAt (y * p.fbWidth + x) color)
      fun m => store m (y * p.fbWidth + x) color := by
  have hpitch := hp.pitch
  have hlt : y * p.fbWidth + x < p.height * p.fbWidth :=
    (address_lt (show x < p.fbWidth by rw [Panel.fbWidth]; omega)).2 hy
  exact storeAt_implements (hlt.trans_le (rows_fit p)) color

theorem plot_implements (x y : Nat) (color : UInt32) :
    Implements (p.height * p.pitch / 4) (FbSlice.plot p x y color) (p.plot x y color) := by
  intro fb h
  rw [FbSlice.plot, Panel.plot]
  split
  next hin => exact pixel_implements hp hin.1 hin.2 color fb h
  next => exact implements_id fb h

theorem drawGlyph_implements (idx x y : Nat) :
    Implements (p.height * p.pitch / 4) (FbSlice.drawGlyph p idx x y) (p.drawGlyph idx x y) := by
  intro fb h
  rw [FbSlice.drawGlyph, Panel.drawGlyph]
  split
  · exact implements_id fb h
  · refine forIn_implements (fun row _ => forIn_implements fun col _ => forIn_implements fun sy _ =>
      forIn_implements fun sx _ => ?_) fb h
    rw [Nat.zero_add, Nat.zero_add, Nat.zero_add, Nat.zero_add]
    exact plot_implements hp _ _ _

theorem fillCursor_implements (x y : Nat) (color : UInt32) :
    Implements (p.height * p.pitch / 4) (FbSlice.fillCursor p x y color)
      (p.fillCursor x y color) := by
  have hwidth : p.charW = x + p.charW - x := (Nat.add_sub_cancel_left _ _).symm
  rw [Panel.fillCursor, hwidth]
  exact forIn_implements fun _ _ => forIn_implements fun _ _ => plot_implements hp _ _ color

theorem eraseCursor_implements (visible : Bool) (x y : Nat) :
    Implements (p.height * p.pitch / 4) (FbSlice.eraseCursor p visible x y)
      (if visible then p.fillCursor x y BG else id) := by
  cases visible with
  | false => exact implements_id
  | true => exact fillCursor_implements hp x y BG

/-! ## The cursor -/

/-- The next row, when the cursor was on the screen: it is there too, after scrolling if need be. -/
theorem nextRow_onScreen (hfb : d.fb.length = p.height * p.pitch / 4) (hy : d.cursorY % 32 = 0)
    (hbottom : d.cursorY + 32 ≤ p.height) :
    ∃ d', FbSlice.nextRow p d = some d' ∧ OnScreen p d' ∧ d'.raster = p.nextRow d.raster := by
  obtain ⟨hw, hh⟩ := hp.charSize
  have hwidth := hp.width
  have hheight := hp.height
  simp only [FbSlice.nextRow, Panel.nextRow, FbSlice.raster, hh]
  by_cases hlast : p.height < d.cursorY + 32 + 32
  · rw [if_pos hlast, if_pos hlast, FbSlice.scroll, Panel.scroll, hh]
    generalize hrows : p.height / 32 = rows
    -- the copy ends with the last row of characters
    have hcopy : 32 * p.fbWidth + (rows - 1) * (32 * p.fbWidth) ≤ p.height * p.pitch / 4 :=
      calc 32 * p.fbWidth + (rows - 1) * (32 * p.fbWidth)
        _ = rows * 32 * p.fbWidth := by
            rw [Nat.add_comm, ← Nat.succ_mul, Nat.mul_assoc, show (rows - 1).succ = rows by omega]
        _ ≤ p.height * p.fbWidth := Nat.mul_le_mul_right _ (by omega)
        _ ≤ p.height * p.pitch / 4 := rows_fit p
    obtain ⟨fb₁, hmove, hfb₁, hw₁⟩ := copyDown_implements hcopy d.fb hfb
    have hblank : Implements (p.height * p.pitch / 4) (forIn ((rows - 1) * 32) p.height fun y =>
        forIn 0 p.width fun x => storeAt (y * p.fbWidth + x) BG) _ :=
      forIn_implements fun y hy => forIn_implements fun x hx => pixel_implements hp hx hy BG
    obtain ⟨fb₂, hfill, hfb₂, hw₂⟩ := hblank fb₁ hfb₁
    simp only [hmove, Option.bind_eq_bind, Option.bind_some, hfill, Nat.add_sub_cancel,
      if_pos (show 0 < d.cursorY + 32 by omega)]
    refine ⟨_, rfl, ⟨hfb₂, rfl, (Nat.zero_add 16).trans_le hwidth, hy, hbottom⟩, ?_⟩
    simp only [hw₂, hw₁, Nat.zero_add, Nat.sub_zero]
  · rw [if_neg hlast, if_neg hlast]
    exact ⟨_, rfl,
      ⟨hfb, rfl, by dsimp only; omega, by dsimp only; omega, by dsimp only; omega⟩, rfl⟩

theorem putchar_onScreen (h : OnScreen p d) (c : UInt8) :
    ∃ d', FbSlice.putchar p d c = some d' ∧ OnScreen p d' ∧ d'.raster = p.putchar d.raster c := by
  obtain ⟨hw, hh⟩ := hp.charSize
  obtain ⟨hfb, hx, hright, hy, hbottom⟩ := h
  have hwidth := hp.width
  obtain ⟨fb₁, herase, hfb₁, hw₁⟩ :=
    eraseCursor_implements hp d.cursorVisible d.cursorX d.cursorY d.fb hfb
  have hraster : p.eraseCursor d.raster =
      ⟨words fb₁, d.cursorX, d.cursorY, d.prevCursorX, d.prevCursorY, false⟩ := by
    rw [Panel.eraseCursor, hw₁]
    cases hvisible : d.cursorVisible with
    | false => simp [FbSlice.raster, hvisible]
    | true => simp [FbSlice.raster, hvisible]
  rw [FbSlice.putchar, herase, Panel.putchar, hraster]
  simp only [Option.bind_eq_bind, Option.bind_some, hw]
  split
  · exact ⟨_, rfl, ⟨hfb₁, rfl, by dsimp only; omega, hy, hbottom⟩, rfl⟩
  split
  · exact nextRow_onScreen hp hfb₁ hy hbottom
  split
  · obtain ⟨fb₂, hdraw, hfb₂, hw₂⟩ := drawGlyph_implements hp (p.font.glyphIndex 0x20)
      (if 16 ≤ d.cursorX then d.cursorX - 16 else d.cursorX) d.cursorY fb₁ hfb₁
    rw [hdraw]
    refine ⟨_, rfl, ⟨hfb₂, by dsimp only; split <;> omega, by dsimp only; split <;> omega, hy,
      hbottom⟩, ?_⟩
    rw [FbSlice.raster, hw₂, Panel.draw]
    split <;> rfl
  · obtain ⟨fb₂, hdraw, hfb₂, hw₂⟩ :=
      drawGlyph_implements hp (p.font.glyphIndex c) d.cursorX d.cursorY fb₁ hfb₁
    rw [hdraw, Panel.draw, Panel.advance, ← hw₂, hw]
    dsimp only [Option.bind_some]
    split
    · exact nextRow_onScreen hp hfb₂ hy hbottom
    · exact ⟨_, rfl, ⟨hfb₂, by dsimp only; omega, by dsimp only; omega, hy, hbottom⟩, rfl⟩

theorem drawCursor_onScreen (h : OnScreen p d) :
    ∃ d', FbSlice.drawCursor p d = some d' ∧ OnScreen p d' ∧ d'.raster = p.drawCursor d.raster := by
  obtain ⟨fb₁, herase, hfb₁, hw₁⟩ :=
    eraseCursor_implements hp d.cursorVisible d.prevCursorX d.prevCursorY d.fb h.length
  obtain ⟨fb₂, hdraw, hfb₂, hw₂⟩ := fillCursor_implements hp d.cursorX d.cursorY FG fb₁ hfb₁
  rw [FbSlice.drawCursor, herase]
  simp only [Option.bind_eq_bind, Option.bind_some, hdraw]
  refine ⟨_, rfl, ⟨hfb₂, h.cellX, h.right, h.cellY, h.bottom⟩, ?_⟩
  rw [FbSlice.raster, hw₂, hw₁, Panel.drawCursor]
  cases hvisible : d.cursorVisible with
  | false => simp [FbSlice.raster, hvisible]
  | true => simp [FbSlice.raster, hvisible]

theorem clear_onScreen (hfb : d.fb.length = p.height * p.pitch / 4) : OnScreen p d.clear :=
  ⟨(length_map _).trans hfb, rfl, (Nat.zero_add 16).trans_le hp.width, rfl,
    (Nat.zero_add 32).trans_le hp.height⟩

omit hp in
theorem clear_raster (d : FbSlice) : d.clear.raster = d.raster.clear := by
  have hwords : words (d.fb.map fun _ => BG) = fun _ => BG := by
    funext i
    rw [words, getD_eq_getElem?_getD, getElem?_map]
    cases d.fb[i]? <;> rfl
  rw [FbSlice.raster, FbSlice.clear, hwords]
  rfl

omit hp in
/-- A step that never fails, keeps the cursor on the screen and does what `f` does, along a run. -/
theorem run_onScreen {ι : Type} {step : FbSlice → ι → Option FbSlice}
    {f : FramebufferDisplay → ι → FramebufferDisplay} (hstep : ∀ d i, OnScreen p d →
      ∃ d', step d i = some d' ∧ OnScreen p d' ∧ d'.raster = f d.raster i) (is : List ι)
    (h : OnScreen p d) :
    ∃ d', runSteps step d is = some d' ∧ OnScreen p d' ∧ d'.raster = is.foldl f d.raster := by
  induction is generalizing d with
  | nil => exact ⟨d, rfl, h, rfl⟩
  | cons i is ih =>
    obtain ⟨d₁, hrun, h₁, hf₁⟩ := hstep d i h
    obtain ⟨d₂, hrest, h₂, hf₂⟩ := ih h₁
    exact ⟨d₂, by rw [runSteps, hrun]; exact hrest, h₂, by rw [hf₂, hf₁, foldl_cons]⟩

theorem call_onScreen (h : OnScreen p d) (c : DisplayCall) :
    ∃ d', FbSlice.call p d c = some d' ∧ OnScreen p d' ∧ d'.raster = p.call d.raster c := by
  cases c with
  | putchar c => exact putchar_onScreen hp h c
  | write s => exact run_onScreen (fun _ c h => putchar_onScreen hp h c) s h
  | clear => exact ⟨_, rfl, clear_onScreen hp h.length, clear_raster d⟩
  | showCursor => exact drawCursor_onScreen hp h

end Bounds

section Output

variable {p : Panel} (hp : p.Fits) {mem : List UInt32}
  (hmem : p.height * p.pitch / 4 ≤ mem.length) (calls : List DisplayCall)
include hp hmem

/-- **The slice shows what the raster shows**, after every sequence of calls. -/
theorem output_is_raster : ∃ d, runSteps (FbSlice.call p) (FbSlice.new p mem) calls = some d ∧
    OnScreen p d ∧ d.raster = calls.foldl p.call (FbSlice.new p mem).raster :=
  run_onScreen (fun _ c h => call_onScreen hp h c) calls
    (clear_onScreen hp (length_take_of_le hmem))

/-- **Framebuffer output stays on the screen.** On every screen that has room for one character,
after every sequence of calls, no pixel was stored and no row copied outside of the slice, and the
cursor is on a whole cell of the screen. -/
theorem output_stays_on_screen : ∃ d, runSteps (FbSlice.call p) (FbSlice.new p mem) calls = some d ∧
    16 ∣ d.cursorX ∧ d.cursorX + 16 ≤ p.width ∧ 32 ∣ d.cursorY ∧ d.cursorY + 32 ≤ p.height := by
  obtain ⟨d, hrun, h, -⟩ := output_is_raster hp hmem calls
  exact ⟨d, hrun, Nat.dvd_of_mod_eq_zero h.cellX, h.right, Nat.dvd_of_mod_eq_zero h.cellY, h.bottom⟩

end Output

/-- A screen of one character, whose height is no multiple of it. -/
def tinyPanel : Panel := ⟨⟨32, 64, 1, replicate 256 0, none⟩, 16, 40, 64⟩

theorem output_stays_on_tinyPanel :
    ∃ d, runSteps (FbSlice.call tinyPanel) (.new tinyPanel (replicate 640 0))
      [.write [0x61, 0x0A], .showCursor, .putchar 0x08] = some d ∧ d.cursorX + 16 ≤ 16 := by
  have hp : tinyPanel.Fits := ⟨rfl, rfl, by decide, by decide, by decide⟩
  have hmem : tinyPanel.height * tinyPanel.pitch / 4 ≤ (replicate 640 (0 : UInt32)).length := by
    rw [length_replicate]
    decide
  obtain ⟨d, hrun, -, hright, -⟩ := output_stays_on_screen hp hmem
    [.write [0x61, 0x0A], .showCursor, .putchar 0x08]
  exact ⟨d, hrun, hright⟩

end PlanckOS.Display
