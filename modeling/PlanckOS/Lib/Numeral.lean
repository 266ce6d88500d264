import Mathlib.Data.Nat.Digits.Defs

/-!
# Numerals written backwards into a buffer

The digits of a number come out of it from the last to the first, so a program writes them
downwards from the end of a buffer (`fillDown`). What then stands in the buffer is the numeral of
the number, in the order in which it is read (`fillDown_numeral`), if there is room for it.
-/

set_option autoImplicit false

namespace PlanckOS.Lib.Numeral

open List

variable (base : Nat) (digit : Nat → UInt8)

/-- Write the digits of `v` downwards from `pos`, until there are no more or there is no room:
the place of the last digit written, what is left of the number, and the buffer. -/
def fillDown : Nat → Nat → List UInt8 → Nat × Nat × List UInt8
  | 0, v, buf => (0, v, buf)
  | pos + 1, v, buf =>
      let buf := buf.set pos (digit (v % base))
      if v / base = 0 then (pos, 0, buf) else fillDown pos (v / base) buf

/-- The numeral of `v`, each of its digits as `glyph` writes it. -/
def numeral (glyph : Char → UInt8) (v : Nat) : List UInt8 := (Nat.toDigits base v).map glyph

variable {base digit} {glyph : Char → UInt8}

theorem numeral_of_lt {v : Nat} (hv : v < base) : numeral base glyph v = [glyph v.digitChar] := by
  simp [numeral, Nat.toDigits_of_lt_base hv]

theorem numeral_of_le (hbase : 1 < base) {v : Nat} (hv : base ≤ v) :
    numeral base glyph v = numeral base glyph (v / base) ++ [glyph (v % base).digitChar] := by
  simp [numeral, Nat.toDigits_of_base_le hbase hv]

theorem numeral_ne_nil (v : Nat) : numeral base glyph v ≠ [] := by
  simp [numeral]

theorem numeral_length_le {v e : Nat} (he : 0 < e) (hv : v < base ^ e) :
    (numeral base glyph v).length ≤ e := by
  simpa [numeral] using Nat.toDigits_length base v e he hv

theorem lt_numeral_length (hbase : 1 < base) {v e : Nat} (hv : base ^ e ≤ v) :
    e < (numeral base glyph v).length := by
  induction e generalizing v with
  | zero => exact length_pos_iff.mpr (numeral_ne_nil v)
  | succ e ih =>
    rw [pow_succ] at hv
    have hle : base ≤ v := (Nat.le_mul_of_pos_left base (Nat.pow_pos (by omega))).trans hv
    have hdiv : base ^ e ≤ v / base := (Nat.le_div_iff_mul_le (by omega)).mpr hv
    rw [numeral_of_le hbase hle, length_append, length_singleton]
    exact Nat.succ_lt_succ (ih hdiv)

/-- Whatever is written stays in the buffer. -/
theorem fillDown_bounds (pos v : Nat) (buf : List UInt8) : (fillDown base digit pos v buf).1 ≤ pos ∧
      (fillDown base digit pos v buf).2.2.length = buf.length := by
  induction pos generalizing v buf with
  | zero => exact ⟨le_rfl, rfl⟩
  | succ pos ih =>
    rw [fillDown]
    split_ifs
    · exact ⟨Nat.le_succ pos, length_set⟩
    · obtain ⟨hpos, hlen⟩ := ih (v / base) (buf.set pos (digit (v % base)))
      exact ⟨hpos.trans (Nat.le_succ pos), hlen.trans length_set⟩

/-- **The digits written downwards are the numeral**, in front of what stood behind `pos`. -/
theorem fillDown_numeral (hbase : 1 < base) (hdigit : ∀ d < base, digit d = glyph d.digitChar)
    (pos v : Nat) (buf : List UInt8) (hroom : (numeral base glyph v).length ≤ pos)
    (hpos : pos ≤ buf.length) :
    ∃ buf', fillDown base digit pos v buf = (pos - (numeral base glyph v).length, 0, buf') ∧
      buf'.length = buf.length ∧
      buf'.drop (pos - (numeral base glyph v).length) = numeral base glyph v ++ buf.drop pos := by
  induction pos generalizing v buf with
  | zero => exact absurd (length_eq_zero_iff.mp (Nat.le_zero.mp hroom)) (numeral_ne_nil v)
  | succ pos ih =>
    have hlast : digit (v % base) = glyph (v % base).digitChar :=
      hdigit _ (Nat.mod_lt _ (by omega))
    have hset : (buf.set pos (digit (v % base))).drop pos =
        digit (v % base) :: buf.drop (pos + 1) := by
      rw [drop_eq_getElem_cons (by simp; omega), getElem_set_self, drop_set_of_lt (by omega)]
    by_cases hv : v < base
    · refine ⟨buf.set pos (digit (v % base)), ?_, length_set, ?_⟩
      · rw [fillDown, if_pos (Nat.div_eq_of_lt hv), numeral_of_lt hv]
        rfl
      · rw [numeral_of_lt hv, length_singleton, Nat.add_sub_cancel, hset, hlast,
          Nat.mod_eq_of_lt hv]
        rfl
    · -- The digits in front of the last one are those of `v / base`.
      have hle := Nat.le_of_not_lt hv
      have hnumeral : numeral base glyph v = _ := numeral_of_le hbase hle
      have hlength :
          (numeral base glyph v).length = (numeral base glyph (v / base)).length + 1 := by
        rw [hnumeral, length_append, length_singleton]
      obtain ⟨buf', hrun, hlen, hdrop⟩ := ih (v / base) (buf.set pos (digit (v % base))) (by omega)
        (by rw [length_set]; omega)
      have hne : v / base ≠ 0 := (Nat.div_pos hle (by omega)).ne'
      refine ⟨buf', ?_, hlen.trans length_set, ?_⟩
      · rw [fillDown, if_neg hne, hrun, hlength, Nat.add_sub_add_right]
      · rw [hlength, Nat.add_sub_add_right, hdrop, hset, hnumeral, hlast, append_assoc]
        rfl

end PlanckOS.Lib.Numeral
