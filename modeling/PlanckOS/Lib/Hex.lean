import Mathlib.Tactic

/-!
# Hexadecimal digits

A digit is written with `hexDigit` and read with `hexValue`; a number is written in a fixed number
of digits (`hexFixed`) and read digit by digit (`readHex`). What was written is read back, modulo
the numbers that have that many digits (`readHex_hexFixed`).
-/

set_option autoImplicit false

namespace PlanckOS.Lib.Hex

open List

/-- `b"0123456789ABCDEF"[n]`. -/
def hexDigit (n : Nat) : UInt8 := if n < 10 then UInt8.ofNat (0x30 + n) else UInt8.ofNat (0x37 + n)

/-- The value of a digit. -/
def hexValue (c : UInt8) : Option Nat :=
  if 0x30 ≤ c ∧ c ≤ 0x39 then some (c.toNat - 0x30)
  else if 0x41 ≤ c ∧ c ≤ 0x46 then some (c.toNat - 0x37)
  else none

theorem hexValue_hexDigit {n : Nat} (h : n < 16) : hexValue (hexDigit n) = some n := by
  have hall : ∀ n < 16, hexValue (hexDigit n) = some n := by decide
  exact hall n h

/-- The digits are ASCII characters, and neither a blank nor a bar. -/
theorem hexDigit_range {n : Nat} (h : n < 16) : 0x30 ≤ hexDigit n ∧ hexDigit n ≤ 0x46 := by
  have hall : ∀ n < 16, 0x30 ≤ hexDigit n ∧ hexDigit n ≤ 0x46 := by decide
  exact hall n h

/-- A number in `k` digits. -/
def hexFixed (k v : Nat) : List UInt8 :=
  (range k).reverse.map fun i => hexDigit ((v >>> (4 * i)) &&& 0xF)

/-- Read digits behind the value `acc`. -/
def readHexFrom (acc : Nat) : List UInt8 → Option Nat
  | [] => some acc
  | c :: cs => (hexValue c).bind fun d => readHexFrom (16 * acc + d) cs

def readHex (cs : List UInt8) : Option Nat := readHexFrom 0 cs

theorem nibble_eq (v i : Nat) : (v >>> (4 * i)) &&& 0xF = v / 16 ^ i % 16 := by
  rw [Nat.shiftRight_eq_div_pow, pow_mul, show (15 : Nat) = 2 ^ 4 - 1 from rfl,
    Nat.and_two_pow_sub_one_eq_mod]
  norm_num

theorem hexFixed_succ (k v : Nat) :
    hexFixed (k + 1) v = hexDigit (v / 16 ^ k % 16) :: hexFixed k v := by
  rw [hexFixed, range_succ, reverse_append, reverse_singleton, singleton_append,
    map_cons, nibble_eq]
  rfl

@[simp] theorem hexFixed_length (k v : Nat) : (hexFixed k v).length = k := by
  simp [hexFixed]

theorem readHexFrom_hexFixed (k v acc : Nat) :
    readHexFrom acc (hexFixed k v) = some (acc * 16 ^ k + v % 16 ^ k) := by
  induction k generalizing acc with
  | zero => simp [hexFixed, readHexFrom, Nat.mod_one]
  | succ k ih =>
    have hsplit : v % 16 ^ (k + 1) = v / 16 ^ k % 16 * 16 ^ k + v % 16 ^ k := by
      rw [pow_succ, Nat.mod_mul, Nat.mul_comm (v / 16 ^ k % 16), Nat.add_comm]
    rw [hexFixed_succ, readHexFrom, hexValue_hexDigit (Nat.mod_lt _ (by decide)), Option.bind_some,
      ih, hsplit, pow_succ]
    ring_nf

/-- **What was written in `k` digits is read back.** -/
theorem readHex_hexFixed {k v : Nat} (h : v < 16 ^ k) : readHex (hexFixed k v) = some v := by
  rw [readHex, readHexFrom_hexFixed, Nat.zero_mul, Nat.zero_add, Nat.mod_eq_of_lt h]

end PlanckOS.Lib.Hex
