import Mathlib.Tactic

/-!
# Writing a row of text

`RowDisplay` is a display of character cells with a cursor, as far as one row of it goes: a carriage
return, and characters that do not yet leave the row. `retype_row` says what a row shows after it
was overwritten twice, first with spaces and then with a text.
-/

set_option autoImplicit false

namespace PlanckOS.Lib.TextRow

open List

/-- The control characters: backspace, line feed, carriage return. -/
def Control (c : UInt8) : Prop := c = 0x08 ∨ c = 0x0A ∨ c = 0x0D

/-- A display of `cols` columns, of which the first `limit` can be written without leaving the
row. -/
structure RowDisplay (σ : Type) where
  putchar : σ → UInt8 → σ
  cell : σ → Nat → Nat → UInt8
  row : σ → Nat
  col : σ → Nat
  cols : Nat
  limit : Nat
  home : ∀ s, row (putchar s 0x0D) = row s ∧ col (putchar s 0x0D) = 0 ∧
    ∀ r k, cell (putchar s 0x0D) r k = cell s r k
  print : ∀ s c, ¬ Control c → col s < limit → row (putchar s c) = row s ∧
    col (putchar s c) = col s + 1 ∧ ∀ r, ∀ k < cols, cell (putchar s c) r k =
      if r = row s ∧ k = col s then c else cell s r k

namespace RowDisplay

variable {σ : Type} (D : RowDisplay σ) {s : σ} {l : List UInt8}

theorem print_all (hl : ∀ c ∈ l, ¬ Control c) (hfit : D.col s + l.length ≤ D.limit) :
    D.row (l.foldl D.putchar s) = D.row s ∧ D.col (l.foldl D.putchar s) = D.col s + l.length ∧
      ∀ r, ∀ k < D.cols, D.cell (l.foldl D.putchar s) r k =
        if r = D.row s ∧ D.col s ≤ k ∧ k < D.col s + l.length then l.getD (k - D.col s) 0x20
        else D.cell s r k := by
  induction l generalizing s with
  | nil => exact ⟨rfl, rfl, fun r k _ => (if_neg fun h => by rw [length_nil] at h; omega).symm⟩
  | cons c l ih =>
    obtain ⟨hc, hl⟩ := forall_mem_cons.mp hl
    rw [length_cons] at hfit ⊢
    obtain ⟨hrow, hcol, hcell⟩ := D.print s c hc (by omega)
    obtain ⟨hrow', hcol', hcell'⟩ := ih (s := D.putchar s c) hl (by omega)
    refine ⟨hrow'.trans hrow, by rw [foldl_cons, hcol', hcol]; omega, fun r k hk => ?_⟩
    rw [foldl_cons, hcell' r k hk, hcell r k hk, hrow, hcol]
    rcases Nat.lt_trichotomy k (D.col s) with hlt | rfl | hgt
    · rw [if_neg (by omega), if_neg (by omega), if_neg (by omega)]
    · rw [if_neg (by omega), Nat.sub_self, getD_cons_zero]
      exact if_congr (by omega) rfl rfl
    · rw [if_neg (c := r = D.row s ∧ k = D.col s) (by omega),
        show k - D.col s = (k - (D.col s + 1)) + 1 by omega, getD_cons_succ]
      exact if_congr (by omega) rfl rfl

/-- The row is written from its start. -/
theorem type_row (hl : ∀ c ∈ l, ¬ Control c) (hfit : l.length ≤ D.limit) :
    D.row ((0x0D :: l).foldl D.putchar s) = D.row s ∧
      D.col ((0x0D :: l).foldl D.putchar s) = l.length ∧
      ∀ r, ∀ k < D.cols, D.cell ((0x0D :: l).foldl D.putchar s) r k =
        if r = D.row s ∧ k < l.length then l.getD k 0x20 else D.cell s r k := by
  obtain ⟨hrow, hcol, hcell⟩ := D.home s
  obtain ⟨hrow', hcol', hcell'⟩ := D.print_all (s := D.putchar s 0x0D) hl (by omega)
  refine ⟨hrow'.trans hrow, by rw [foldl_cons, hcol', hcol, Nat.zero_add], fun r k hk => ?_⟩
  rw [foldl_cons, hcell' r k hk, hcell, hrow, hcol]
  simp

/-- **A row that is cleared and typed again**: `m` spaces, and then the text, behind a prompt. -/
theorem retype_row {prompt text : List UInt8} {m : Nat} (hprompt : ∀ c ∈ prompt, ¬ Control c)
    (htext : ∀ c ∈ text, ¬ Control c) (hclear : prompt.length + m ≤ D.limit)
    (hfit : prompt.length + text.length ≤ D.limit) :
    let s' := (0x0D :: (prompt ++ replicate m 0x20) ++ 0x0D :: (prompt ++ text)).foldl D.putchar s
    D.row s' = D.row s ∧ D.col s' = prompt.length + text.length ∧ ∀ r, ∀ k < D.cols, D.cell s' r k =
      if r = D.row s ∧ (k < prompt.length + m ∨ k < prompt.length + text.length) then
        (prompt ++ text).getD k 0x20 else D.cell s r k := by
  have hspaces : ∀ c ∈ prompt ++ replicate m 0x20, ¬ Control c := by
    intro c hc
    rcases mem_append.mp hc with hc | hc
    · exact hprompt c hc
    · rw [eq_of_mem_replicate hc, Control]
      decide
  have hline : ∀ c ∈ prompt ++ text, ¬ Control c := fun c hc =>
    (mem_append.mp hc).elim (hprompt c) (htext c)
  have hlen : (prompt ++ replicate m 0x20).length = prompt.length + m := by simp
  obtain ⟨hrow, -, hcell⟩ := D.type_row (s := s) hspaces (hlen.trans_le hclear)
  obtain ⟨hrow', hcol', hcell'⟩ := D.type_row (s := (0x0D :: (prompt ++ replicate m 0x20)).foldl
    D.putchar s) hline (by rwa [length_append])
  simp only [foldl_append]
  refine ⟨hrow'.trans hrow, hcol'.trans length_append, fun r k hk => ?_⟩
  rw [hcell' r k hk, hcell r k hk, hrow, hlen, length_append]
  by_cases hin : r = D.row s ∧ k < prompt.length + text.length
  · rw [if_pos hin, if_pos ⟨hin.1, .inr hin.2⟩]
  rw [if_neg hin]
  by_cases hblank : r = D.row s ∧ k < prompt.length + m
  · -- both lists have ended here
    have hend : (prompt ++ text)[k]? = none :=
      getElem?_eq_none (by rw [length_append]; omega)
    rw [if_pos hblank, if_pos ⟨hblank.1, .inl hblank.2⟩, getD_eq_getElem?_getD,
      getD_eq_getElem?_getD, hend, getElem?_append_right (by omega),
      getElem?_replicate]
    split <;> rfl
  · rw [if_neg hblank, if_neg (by tauto)]

end RowDisplay

end PlanckOS.Lib.TextRow
