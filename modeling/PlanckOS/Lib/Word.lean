import Mathlib.Data.Nat.Bitwise
import Mathlib.Tactic

/-!
# Fixed-width words over `Nat`

Unsigned machine words are natural numbers; the operations that a fixed width can make wrap carry
their `% 2 ^ w` explicitly. The mask lemmas turn the bit operations that field accessors use into
division and remainder, where `omega` works, and `leVal` / `leByte` relate a word to its bytes in
little-endian order.
-/

set_option autoImplicit false

/-- A string of bytes. -/
abbrev PlanckOS.Bytes := List UInt8

namespace PlanckOS.Lib.Word

variable {a b : Nat}

/-! ## Wrapping arithmetic -/

/-- Wrapping 64-bit addition. -/
def wadd (a b : Nat) : Nat := (a + b) % 2 ^ 64

/-- Wrapping 64-bit subtraction. -/
def wsub (a b : Nat) : Nat := (a + (2 ^ 64 - b % 2 ^ 64)) % 2 ^ 64

/-- Checked 64-bit addition. -/
def checkedAdd (a b : Nat) : Option Nat := if a + b < 2 ^ 64 then some (a + b) else none

theorem wadd_of_lt (h : a + b < 2 ^ 64) : wadd a b = a + b :=
  Nat.mod_eq_of_lt h

theorem wsub_of_le (ha : a < 2 ^ 64) (h : b ≤ a) : wsub a b = a - b := by
  have hb : b % 2 ^ 64 = b := Nat.mod_eq_of_lt (by omega)
  rw [wsub, hb]
  omega

theorem wadd_wsub (ha : a < 2 ^ 64) : wadd (wsub a b) b = a := by
  have hb : b % 2 ^ 64 < 2 ^ 64 := Nat.mod_lt _ (by decide)
  rw [wadd, wsub]
  omega

theorem wsub_wadd (ha : a < 2 ^ 64) : wsub (wadd a b) b = a := by
  have hb : b % 2 ^ 64 < 2 ^ 64 := Nat.mod_lt _ (by decide)
  rw [wadd, wsub]
  omega

theorem wadd_lt (a b : Nat) : wadd a b < 2 ^ 64 := Nat.mod_lt _ (by decide)

/-! ## Masks -/

theorem land_seven (w : Nat) : w &&& 7 = w % 8 := Nat.and_two_pow_sub_one_eq_mod w 3

/-- Keeping the bits of a `w`-bit word from position `k` on rounds down to a multiple of
`2 ^ k`. -/
theorem land_high_mask {w k x : Nat} (hk : k ≤ w) (hx : x < 2 ^ w) :
    x &&& (2 ^ w - 2 ^ k) = x / 2 ^ k * 2 ^ k := by
  have hmask : 2 ^ w - 2 ^ k = (2 ^ (w - k) - 1) <<< k := by
    rw [Nat.shiftLeft_eq, Nat.sub_mul, Nat.one_mul, ← Nat.pow_add, Nat.sub_add_cancel hk]
  rw [hmask]
  refine Nat.eq_of_testBit_eq fun i => ?_
  rw [Nat.testBit_and, Nat.testBit_shiftLeft, Nat.testBit_mul_two_pow, Nat.testBit_two_pow_sub_one,
    Nat.testBit_div_two_pow]
  by_cases hi : k ≤ i
  · have hik : i - k + k = i := Nat.sub_add_cancel hi
    by_cases hw : i < w
    · have : i - k < w - k := by omega
      simp [hi, this, hik]
    · have hbit : x.testBit i = false :=
        Nat.testBit_lt_two_pow (lt_of_lt_of_le hx (Nat.pow_le_pow_right (by decide) (by omega)))
      simp [hi, hik, hbit]
  · simp [hi]

/-- A field below a multiple of `2 ^ k` is added by a bitwise or. -/
theorem lor_low_field {x f k : Nat} (hx : x % 2 ^ k = 0) (hf : f < 2 ^ k) : x ||| f = x + f := by
  obtain ⟨y, rfl⟩ := Nat.dvd_of_mod_eq_zero hx
  have h := Nat.shiftLeft_add_eq_or_of_lt hf y
  rw [Nat.shiftLeft_eq, Nat.mul_comm] at h
  exact h.symm

/-! ## Little-endian bytes -/

/-- The number spelled by the bytes `f 0, …, f (n - 1)`, least significant first. -/
def leVal (f : Nat → UInt8) : Nat → Nat
  | 0 => 0
  | n + 1 => (f 0).toNat + 256 * leVal (fun i => f (i + 1)) n

/-- Byte `k` of the number `w`. -/
def leByte (w k : Nat) : UInt8 := UInt8.ofNat (w / 256 ^ k)

theorem leVal_lt (f : Nat → UInt8) (n : Nat) : leVal f n < 256 ^ n := by
  induction n generalizing f with
  | zero => simp [leVal]
  | succ n ih =>
    have h0 : (f 0).toNat < 256 := (f 0).toNat_lt
    have hrest := ih fun i => f (i + 1)
    rw [leVal, Nat.pow_succ]
    omega

theorem leVal_congr {f g : Nat → UInt8} {n : Nat} (h : ∀ i < n, f i = g i) :
    leVal f n = leVal g n := by
  induction n generalizing f g with
  | zero => rfl
  | succ n ih =>
    rw [leVal, leVal, h 0 (by omega), ih fun i hi => h (i + 1) (by omega)]

theorem leByte_succ (w k : Nat) : leByte w (k + 1) = leByte (w / 256) k := by
  rw [leByte, leByte, Nat.pow_succ', Nat.div_div_eq_div_mul]

/-- Reading back the bytes of a word gives the word, cut to the bytes read. -/
theorem leVal_leByte (w n : Nat) : leVal (leByte w) n = w % 256 ^ n := by
  induction n generalizing w with
  | zero => simp [leVal, Nat.mod_one]
  | succ n ih =>
    have hstep : leVal (fun i => leByte w (i + 1)) n = leVal (leByte (w / 256)) n :=
      leVal_congr fun i _ => leByte_succ w i
    have h0 : (leByte w 0).toNat = w % 256 := by simp [leByte]
    rw [leVal, hstep, ih, h0, Nat.pow_succ', Nat.mod_mul]

end PlanckOS.Lib.Word
