import PlanckOS.Lib.Raster

/-!
# The text mode display of `src/hal/display.rs`

The screen is a buffer of 80 × 25 words at `0xB8000`, the low byte of a word being the character
and the high byte its colour. `putchar_impl` wraps late: a character in the last column leaves `COL`
at 80, and the next printable character moves to the next row first. `nextCell` is the cell that
character goes to.

The hardware cursor, which every call programs to `ROW * 80 + COL`, is not part of the model.
-/

set_option autoImplicit false

namespace PlanckOS.Display

open Lib.Raster

variable {row col : Nat}

def WIDTH : Nat := 80
def HEIGHT : Nat := 25

/-- White on deep purple. -/
def COLOR : UInt8 := 0x5F

def entry (c color : UInt8) : UInt16 := color.toUInt16 <<< 8 ||| c.toUInt16

/-- The text buffer and the statics `COL` and `ROW`. -/
structure VgaDisplay where
  buf : Nat → UInt16
  col : Nat
  row : Nat

namespace VgaDisplay

variable (d : VgaDisplay)

def clearImpl : VgaDisplay where
  buf := forRange (fun i buf => store buf i (entry 0x20 COLOR)) (WIDTH * HEIGHT) d.buf
  col := 0
  row := 0

def scrollImpl : VgaDisplay :=
  let buf := shiftRows WIDTH (HEIGHT - 1) d.buf
  { d with
    buf := forRange (fun col buf => store buf ((HEIGHT - 1) * WIDTH + col) (entry 0x20 COLOR))
      WIDTH buf }

/-- `COL = 0; ROW += 1`, scrolling when that leaves the screen. -/
def nextRow : VgaDisplay :=
  let d := { d with col := 0, row := d.row + 1 }
  if HEIGHT ≤ d.row then { d.scrollImpl with row := HEIGHT - 1 } else d

/-- Write a character at the cursor and move on. -/
def put (c : UInt8) : VgaDisplay :=
  { d with buf := store d.buf (d.row * WIDTH + d.col) (entry c COLOR), col := d.col + 1 }

def putcharImpl (c : UInt8) : VgaDisplay :=
  if c = 0x08 then if 0 < d.col then { d with col := d.col - 1 } else d
  else if c = 0x0D then { d with col := 0 }
  else if c = 0x0A then d.nextRow
  else (if WIDTH ≤ d.col then d.nextRow else d).put c

/-- The character in a cell. -/
def charAt (row col : Nat) : UInt8 := (d.buf (row * WIDTH + col)).toUInt8

/-- Row and column of the cell that the next printable character is written to. -/
def nextCell : Nat × Nat :=
  let d := if WIDTH ≤ d.col then d.nextRow else d
  (d.row, d.col)

theorem width_pos : 0 < WIDTH := by decide

theorem height_pos : 0 < HEIGHT := by decide

theorem lastRow_lt : HEIGHT - 1 < HEIGHT := by decide

/-! ## What the calls do to the cells -/

variable {d}

@[simp] theorem toUInt8_entry (c color : UInt8) : (entry c color).toUInt8 = c := by
  apply UInt8.eq_of_toBitVec_eq
  ext i hi
  simp [entry]

theorem charAt_eq : d.charAt row col = (pixel WIDTH d.buf col row).toUInt8 := rfl

theorem clearImpl_charAt (hrow : row < HEIGHT) (hcol : col < WIDTH) :
    d.clearImpl.charAt row col = 0x20 := by
  have hbuf : ∀ i < WIDTH * HEIGHT, d.clearImpl.buf i = entry 0x20 COLOR := by
    simp only [clearImpl]
    refine forRange_invariant (fun k (buf : Nat → UInt16) => ∀ i < k, buf i = entry 0x20 COLOR)
      (by simp) fun k buf _ ih i hi => ?_
    rw [store]
    split
    · rfl
    · exact ih i (by omega)
  have hlt : row * WIDTH + col < WIDTH * HEIGHT := by
    rw [Nat.mul_comm WIDTH]
    exact (address_lt hcol).2 hrow
  rw [charAt, hbuf _ hlt, toUInt8_entry]

/-- Scrolling: every row shows what the next one showed, the last row is blank. -/
theorem scrollImpl_charAt (hrow : row < HEIGHT) (hcol : col < WIDTH) : d.scrollImpl.charAt row col =
      if row + 1 < HEIGHT then d.charAt (row + 1) col else 0x20 := by
  have hheight : HEIGHT = 25 := rfl
  have hshift := shiftRows_apply WIDTH (HEIGHT - 1) d.buf (row * WIDTH + col)
  rw [charAt_eq, scrollImpl, fillRow_pixel
    (fun _ col buf => store buf ((HEIGHT - 1) * WIDTH + col) (entry 0x20 COLOR))
    (fun _ _ => entry 0x20 COLOR) 0 (Nat.le_of_eq (Nat.zero_add _))
    (fun dx m _ => by rw [Nat.add_zero, Nat.zero_add]) _ hcol]
  by_cases hlt : row + 1 < HEIGHT
  · rw [if_neg (by omega), if_pos hlt, pixel, hshift, if_pos ((address_lt hcol).2 (by omega)),
      charAt, Nat.add_one_mul]
    congr 2
    omega
  · rw [if_pos (by omega), if_neg hlt, toUInt8_entry]

theorem put_charAt (c : UInt8) (hcol : d.col < WIDTH) (hcol' : col < WIDTH) :
    (d.put c).charAt row col = if row = d.row ∧ col = d.col then c else d.charAt row col := by
  rw [charAt_eq, charAt_eq, put, pixel_store _ _ hcol hcol']
  by_cases h : col = d.col ∧ row = d.row
  · rw [if_pos h, if_pos h.symm, toUInt8_entry]
  · rw [if_neg h, if_neg fun hn => h hn.symm]

/-! ## The cursor -/

theorem nextCell_of_lt (h : d.col < WIDTH) : d.nextCell = (d.row, d.col) := by
  rw [nextCell, if_neg (Nat.not_le.2 h)]

theorem nextRow_of_lt (h : d.row + 1 < HEIGHT) :
    d.nextRow = { d with col := 0, row := d.row + 1 } := by
  simp only [nextRow]
  rw [if_neg (Nat.not_le.2 h)]

/-- Behind a full row the next character goes to the row below. -/
theorem nextCell_of_full (hfull : WIDTH ≤ d.col) (h : d.row + 1 < HEIGHT) :
    d.nextCell = (d.row + 1, 0) := by
  rw [nextCell, if_pos hfull, nextRow_of_lt h]

end VgaDisplay

end PlanckOS.Display
