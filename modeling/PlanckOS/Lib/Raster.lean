import Mathlib.Tactic

/-!
# Counted loops over a raster

A raster is a memory read as rows of `stride` elements. `forRange body n` is the loop
`for i in 0..n`; its rule `forRange_invariant` takes an invariant indexed by the number of rounds.
Two nested loops are described here once, element by element: one that stores into a rectangle
(`fillRect_pixel`), and one that copies every row over the row before it (`shiftRows_apply`).
-/

set_option autoImplicit false

namespace PlanckOS.Lib.Raster

universe u v

variable {stride x y x' y' h px py : Nat}

variable {α : Type u} {σ : Type v}

/-! ## Counted loops -/

/-- `for i in 0..n { body }`. -/
def forRange (body : Nat → σ → σ) : Nat → σ → σ
  | 0, s => s
  | n + 1, s => body n (forRange body n s)

/-- The invariant rule: `I i` holds before round `i`. -/
theorem forRange_invariant {body : Nat → σ → σ} (I : Nat → σ → Prop) {n : Nat} {s : σ}
    (h₀ : I 0 s) (hstep : ∀ i t, i < n → I i t → I (i + 1) (body i t)) :
    I n (forRange body n s) := by
  induction n with
  | zero => exact h₀
  | succ n ih =>
    exact hstep n _ (Nat.lt_succ_self n) (ih fun i t hi => hstep i t (by omega))

/-! ## Elements of a raster -/

/-- Store one element. -/
def store (m : Nat → α) (a : Nat) (v : α) : Nat → α := fun i => if i = a then v else m i

/-- The element in column `x` of row `y`. -/
def pixel (stride : Nat) (m : Nat → α) (x y : Nat) : α := m (y * stride + x)

/-- Column and row are determined by the address. -/
theorem address_inj (hx : x < stride) (hx' : x' < stride) :
    y' * stride + x' = y * stride + x ↔ x' = x ∧ y' = y := by
  constructor
  · intro h
    have hcol := congrArg (· % stride) h
    simp only [Nat.mul_add_mod_self_right, Nat.mod_eq_of_lt hx, Nat.mod_eq_of_lt hx'] at hcol
    subst hcol
    have hpos : 0 < stride := by omega
    exact ⟨rfl, Nat.eq_of_mul_eq_mul_right hpos (by omega)⟩
  · rintro ⟨rfl, rfl⟩
    rfl

/-- The addresses of the first `h` rows. -/
theorem address_lt (hx : x < stride) : y * stride + x < h * stride ↔ y < h := by
  constructor
  · intro hlt
    by_contra hge
    have hmul := Nat.mul_le_mul_right stride (Nat.not_lt.1 hge)
    omega
  · intro hy
    have hmul := Nat.mul_le_mul_right stride (Nat.succ_le_of_lt hy)
    rw [Nat.succ_mul] at hmul
    omega

theorem pixel_store (m : Nat → α) (v : α) (hx : x < stride)
    (hx' : x' < stride) : pixel stride (store m (y * stride + x) v) x' y' =
      if x' = x ∧ y' = y then v else pixel stride m x' y' := by
  simp only [pixel, store, address_inj hx hx']

/-! ## Storing into a rectangle -/

section Fill

variable {w : Nat} (body : Nat → Nat → (Nat → α) → Nat → α) (color : Nat → Nat → α)

/-- One row of the rectangle. -/
theorem fillRow_pixel (dy : Nat) (hx : x + w ≤ stride)
    (hbody : ∀ dx m, dx < w → body dy dx m = store m ((y + dy) * stride + (x + dx)) (color dx dy))
    (m : Nat → α) (hpx : px < stride) : pixel stride (forRange (body dy) w m) px py =
      if py = y + dy ∧ x ≤ px ∧ px < x + w then color (px - x) dy else pixel stride m px py := by
  refine forRange_invariant (fun k m' => pixel stride m' px py =
    if py = y + dy ∧ x ≤ px ∧ px < x + k then color (px - x) dy else pixel stride m px py) ?_ ?_
  · rw [if_neg (by omega)]
  · intro k m' hk ih
    rw [hbody k m' hk, pixel_store _ _ (by omega) hpx, ih]
    by_cases hnew : px = x + k ∧ py = y + dy
    · rw [if_pos hnew, if_pos (by omega), show px - x = k by omega]
    · rw [if_neg hnew]
      by_cases hold : py = y + dy ∧ x ≤ px ∧ px < x + k
      · rw [if_pos hold, if_pos (by omega)]
      · rw [if_neg hold, if_neg (by omega)]

/-- **A rectangle.** A nested loop that stores `color dx dy` at `(x + dx, y + dy)` changes the
rectangle of `w` columns and `h` rows from `(x, y)` on, and nothing else. -/
theorem fillRect_pixel (hx : x + w ≤ stride) (hbody : ∀ dx dy m, dx < w → dy < h →
      body dy dx m = store m ((y + dy) * stride + (x + dx)) (color dx dy))
    (m : Nat → α) (hpx : px < stride) :
    pixel stride (forRange (fun dy => forRange (body dy) w) h m) px py =
      if x ≤ px ∧ px < x + w ∧ y ≤ py ∧ py < y + h then color (px - x) (py - y)
      else pixel stride m px py := by
  refine forRange_invariant (fun k m' => pixel stride m' px py =
    if x ≤ px ∧ px < x + w ∧ y ≤ py ∧ py < y + k then color (px - x) (py - y)
    else pixel stride m px py) ?_ ?_
  · rw [if_neg (by omega)]
  · intro k m' hk ih
    rw [fillRow_pixel body color k hx (fun dx m hdx => hbody dx k m hdx hk) m' hpx, ih]
    by_cases hnew : py = y + k ∧ x ≤ px ∧ px < x + w
    · rw [if_pos hnew, if_pos (by omega), show py - y = k by omega]
    · rw [if_neg hnew]
      by_cases hold : x ≤ px ∧ px < x + w ∧ y ≤ py ∧ py < y + k
      · rw [if_pos hold, if_pos (by omega)]
      · rw [if_neg hold, if_neg (by omega)]

end Fill

/-! ## Copying rows up -/

/-- Copy every row over the one before it, element by element, for the first `h` rows. -/
def shiftRows (stride h : Nat) : (Nat → α) → Nat → α :=
  forRange (fun row => forRange (fun col m =>
    store m (row * stride + col) (m ((row + 1) * stride + col))) stride) h

/-- No source element is overwritten before it is read. -/
theorem shiftRows_apply (stride h : Nat) (m : Nat → α) (i : Nat) :
    shiftRows stride h m i = if i < h * stride then m (i + stride) else m i := by
  have hrow : ∀ (row : Nat) (m' : Nat → α),
      (∀ i, m' i = if i < row * stride then m (i + stride) else m i) →
      ∀ i, forRange (fun col m => store m (row * stride + col) (m ((row + 1) * stride + col)))
        stride m' i = if i < (row + 1) * stride then m (i + stride) else m i := by
    intro row m' hm'
    rw [Nat.add_one_mul]
    refine forRange_invariant (fun k (t : Nat → α) => ∀ i, t i =
      if i < row * stride + k then m (i + stride) else m i) (by simpa using hm') ?_
    intro k t hk ih i
    rw [store]
    by_cases hi : i = row * stride + k
    · rw [if_pos hi, if_pos (by omega), ih, if_neg (by omega), hi]
      congr 1
      omega
    · rw [if_neg hi, ih]
      by_cases hlt : i < row * stride + k
      · rw [if_pos hlt, if_pos (by omega)]
      · rw [if_neg hlt, if_neg (by omega)]
  exact forRange_invariant (fun k (t : Nat → α) => ∀ i, t i =
    if i < k * stride then m (i + stride) else m i) (by simp) (fun row t _ ih => hrow row t ih) i

end PlanckOS.Lib.Raster
