import Mathlib.Data.List.Basic
import Mathlib.Tactic

/-!
# Blocks of a list

`block w xs r` is the part of `xs` with the indices from `w * r` to `w * r + w`. The blocks in order
are the list (`flatMap_block_all`), and a program that takes the blocks one after the other, or in
groups, makes the same of them (`mapBlocks_cons`, `mapBlocks_split`). The other way round, a list
that is put together from pieces of one length is read at the places that this length gives
(`getElem?_flatMap_length`).
-/

set_option autoImplicit false

namespace PlanckOS.Lib.Blocks

open List

variable {w : Nat} {α β : Type} {xs : List α}

section

variable (w : Nat) (xs : List α)

/-- Block `r` of width `w`. -/
def block (r : Nat) : List α := (xs.drop (w * r)).take w

theorem block_length (r : Nat) : (block w xs r).length = min w (xs.length - w * r) := by
  rw [block, length_take, length_drop]

/-- The first blocks together. -/
theorem flatMap_block (n : Nat) : (range n).flatMap (block w xs) = xs.take (w * n) := by
  induction n with
  | zero => simp
  | succ n ih =>
    rw [range_succ, flatMap_append, ih, flatMap_singleton, Nat.mul_succ, take_add]
    rfl

/-- How many blocks there are. -/
def count : Nat := (xs.length + w - 1) / w

end

theorem length_le_count (hw : 0 < w) (xs : List α) : xs.length ≤ w * count w xs := by
  have hdiv := Nat.lt_div_mul_add (a := xs.length + w - 1) hw
  rw [Nat.mul_comm, count]
  omega

theorem lt_length_of_lt_count {r : Nat} (hw : 0 < w) (hr : r < count w xs) : w * r < xs.length := by
  rw [count, Nat.lt_div_iff_mul_lt hw, Nat.mul_comm] at hr
  omega

/-- All blocks together. -/
theorem flatMap_block_all (hw : 0 < w) (xs : List α) :
    (range (count w xs)).flatMap (block w xs) = xs := by
  rw [flatMap_block, take_of_length_le (length_le_count hw xs)]

/-- The first block, and the blocks of the rest. -/
theorem count_drop (hw : 0 < w) (hxs : xs ≠ []) : count w xs = count w (xs.drop w) + 1 := by
  have hpos := length_pos_iff.mpr hxs
  rw [count, count, length_drop]
  rcases Nat.le_total xs.length w with hle | hle
  · rw [Nat.sub_eq_zero_of_le hle, Nat.zero_add, Nat.div_eq_of_lt (Nat.sub_lt hw Nat.one_pos)]
    exact Nat.div_eq_of_lt_le (by omega) (by omega)
  · rw [show xs.length + w - 1 = xs.length - w + w - 1 + w by omega, Nat.add_div_right _ hw]

theorem block_zero (w : Nat) (xs : List α) : block w xs 0 = xs.take w := by
  rw [block, Nat.mul_zero, drop_zero]

theorem block_succ (w : Nat) (xs : List α) (r : Nat) :
    block w xs (r + 1) = block w (xs.drop w) r := by
  rw [block, block, drop_drop, Nat.mul_succ, Nat.add_comm]

/-- What `f` makes of the blocks, in order. -/
def mapBlocks (w : Nat) (f : Nat → List α → List β) (xs : List α) : List β :=
  (range (count w xs)).flatMap fun r => f r (block w xs r)

theorem mapBlocks_nil (hw : 0 < w) (f : Nat → List α → List β) : mapBlocks w f [] = [] := by
  rw [mapBlocks, count, length_nil, Nat.zero_add, Nat.div_eq_of_lt (Nat.sub_lt hw Nat.one_pos)]
  rfl

theorem mapBlocks_cons (hw : 0 < w) (f : Nat → List α → List β) (hxs : xs ≠ []) :
    mapBlocks w f xs = f 0 (xs.take w) ++ mapBlocks w (fun r => f (r + 1)) (xs.drop w) := by
  rw [mapBlocks, mapBlocks, count_drop hw hxs, range_succ_eq_map, flatMap_cons,
    block_zero, flatMap_map]
  simp only [block_succ]

/-- The blocks of the first `n` blocks, and those of the rest. -/
theorem mapBlocks_split (hw : 0 < w) (n : Nat) (f : Nat → List α → List β) (xs : List α) :
    mapBlocks w f xs =
      mapBlocks w f (xs.take (w * n)) ++ mapBlocks w (fun r => f (n + r)) (xs.drop (w * n)) := by
  induction n generalizing f xs with
  | zero => simp [mapBlocks_nil hw]
  | succ n ih =>
    by_cases hxs : xs = []
    · simp [hxs, mapBlocks_nil hw]
    have hfront : xs.take (w * (n + 1)) ≠ [] := by
      rw [Ne, take_eq_nil_iff, not_or]
      exact ⟨(Nat.mul_pos hw n.succ_pos).ne', hxs⟩
    rw [mapBlocks_cons hw f hxs, ih, mapBlocks_cons hw f hfront, append_assoc, take_take,
      drop_take, drop_drop, Nat.mul_succ, Nat.add_sub_cancel, Nat.min_eq_left (by omega),
      Nat.add_comm w]
    simp only [Nat.add_right_comm]

/-- The element at place `i` of piece `k`, when all pieces are `w` long. -/
theorem getElem?_flatMap_length {f : α → List β} (hf : ∀ a, (f a).length = w)
    (xs : List α) {k i : Nat} (hi : i < w) :
    (xs.flatMap f)[w * k + i]? = (xs[k]?).bind fun a => (f a)[i]? := by
  induction xs generalizing k with
  | nil => simp
  | cons a xs ih =>
    rw [flatMap_cons]
    cases k with
    | zero => rw [Nat.mul_zero, Nat.zero_add, getElem?_append_left (by rw [hf]; exact hi)]; rfl
    | succ k =>
      have hle : w ≤ w * (k + 1) + i := by
        rw [Nat.mul_succ]
        omega
      have hsub : w * (k + 1) + i - w = w * k + i := by
        rw [Nat.mul_succ]
        omega
      rw [getElem?_append_right (by rw [hf]; exact hle), hf, hsub, ih]
      rfl

end PlanckOS.Lib.Blocks
