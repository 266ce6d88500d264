import Mathlib.Data.List.Basic
import Mathlib.Tactic

/-!
# Coalesced tilings of an interval

A tiling cuts an interval of addresses into consecutive cells, each used or free. It is coalesced
when no two neighbouring cells are free. The main fact is canonicity (`eq_of_used_eq`): a
coalesced tiling of a given interval is determined by its used cells, because every free cell is
a maximal gap between them. Two histories that end with the same used cells therefore end with
the same tiling, whatever merges happened on the way.
-/

set_option autoImplicit false

namespace PlanckOS.Lib.Tiling

open List

variable {a x y : Nat}

/-- A cell of a tiling. -/
structure Cell where
  size : Nat
  used : Bool
  deriving DecidableEq, Repr

/-- The length of the interval covered. -/
def span : List Cell → Nat
  | [] => 0
  | c :: cs => c.size + span cs

/-- The cells with their start addresses, the first one starting at `a`. -/
def placed (a : Nat) : List Cell → List (Nat × Cell)
  | [] => []
  | c :: cs => (a, c) :: placed (a + c.size) cs

/-- Cells are not empty, and a free cell follows a used one; `pu` says whether the cell before the
first one is used. -/
def Coalesced : Bool → List Cell → Prop
  | _, [] => True
  | pu, c :: cs => 0 < c.size ∧ (c.used = false → pu = true) ∧ Coalesced c.used cs

/-- Total size of the free cells. -/
def freeSpan : List Cell → Nat
  | [] => 0
  | c :: cs => (if c.used then 0 else c.size) + freeSpan cs

variable {c d : Cell} {cs ds : List Cell} {pu : Bool}

@[simp] theorem span_append (xs ys : List Cell) : span (xs ++ ys) = span xs + span ys := by
  induction xs with
  | nil => simp [span]
  | cons c cs ih => simp only [cons_append, span, ih]; omega

@[simp] theorem freeSpan_append (xs ys : List Cell) :
    freeSpan (xs ++ ys) = freeSpan xs + freeSpan ys := by
  induction xs with
  | nil => simp [freeSpan]
  | cons c cs ih => simp only [cons_append, freeSpan, ih]; omega

theorem placed_append (a : Nat) (xs ys : List Cell) :
    placed a (xs ++ ys) = placed a xs ++ placed (a + span xs) ys := by
  induction xs generalizing a with
  | nil => simp [placed, span]
  | cons c cs ih => simp only [cons_append, placed, ih, span, Nat.add_assoc]

theorem freeSpan_le_span (cs : List Cell) : freeSpan cs ≤ span cs := by
  induction cs with
  | nil => exact Nat.le_refl 0
  | cons c cs ih =>
    simp only [freeSpan, span]
    split <;> omega

/-- A placed cell splits the tiling at its address. -/
theorem mem_placed_iff :
    (x, c) ∈ placed a cs ↔ ∃ pre post, cs = pre ++ c :: post ∧ x = a + span pre := by
  constructor
  · intro h
    induction cs generalizing a with
    | nil => simp [placed] at h
    | cons d ds ih =>
      simp only [placed, mem_cons, Prod.mk.injEq] at h
      rcases h with ⟨rfl, rfl⟩ | h
      · exact ⟨[], ds, rfl, by simp [span]⟩
      · obtain ⟨pre, post, rfl, rfl⟩ := ih h
        exact ⟨d :: pre, post, rfl, by simp only [span]; omega⟩
  · rintro ⟨pre, post, rfl, rfl⟩
    rw [placed_append]
    simp [placed]

theorem placed_le (h : (x, c) ∈ placed a cs) : a ≤ x ∧ x + c.size ≤ a + span cs := by
  obtain ⟨pre, post, rfl, rfl⟩ := mem_placed_iff.1 h
  simp only [span_append, span]
  omega

theorem mem_of_placed (h : (x, c) ∈ placed a cs) : c ∈ cs := by
  obtain ⟨pre, post, rfl, -⟩ := mem_placed_iff.1 h
  simp

/-- Different placed cells do not overlap. -/
theorem placed_disjoint (hx : (x, c) ∈ placed a cs) (hy : (y, d) ∈ placed a cs)
    (hne : (x, c) ≠ (y, d)) :
    x + c.size ≤ y ∨ y + d.size ≤ x := by
  induction cs generalizing a with
  | nil => simp [placed] at hx
  | cons e es ih =>
    simp only [placed, mem_cons] at hx hy
    rcases hx with hx | hx <;> rcases hy with hy | hy
    · exact absurd (hx.trans hy.symm) hne
    · obtain ⟨rfl, rfl⟩ := Prod.mk.inj hx
      exact Or.inl (placed_le hy).1
    · obtain ⟨rfl, rfl⟩ := Prod.mk.inj hy
      exact Or.inr (placed_le hx).1
    · exact ih hx hy

theorem Coalesced.span_pos (h : Coalesced pu (c :: cs)) : 0 < span (c :: cs) := by
  have := h.1
  simp only [span]
  omega

theorem Coalesced.size_pos (h : Coalesced pu cs) (hx : (x, c) ∈ placed a cs) : 0 < c.size := by
  induction cs generalizing a pu with
  | nil => simp [placed] at hx
  | cons d ds ih =>
    obtain ⟨hpos, -, hrest⟩ := h
    simp only [placed, mem_cons] at hx
    rcases hx with hx | hx
    · obtain ⟨-, rfl⟩ := Prod.mk.inj hx
      exact hpos
    · exact ih hrest hx

theorem Coalesced.length_le (h : Coalesced pu cs) : cs.length ≤ span cs := by
  induction cs generalizing pu with
  | nil => exact Nat.le_refl 0
  | cons c cs ih =>
    have hpos := h.1
    have hrest := ih h.2.2
    simp only [length_cons, span]
    omega

/-- Free cells are not neighbours. -/
theorem Coalesced.not_adjacent (h : Coalesced pu cs) (hx : (x, c) ∈ placed a cs)
    (hy : (y, d) ∈ placed a cs) (hc : c.used = false) (hd : d.used = false) : x + c.size ≠ y := by
  intro hxy
  have hcpos := h.size_pos hx
  have hdpos := h.size_pos hy
  induction cs generalizing a pu with
  | nil => simp [placed] at hx
  | cons e es ih =>
    simp only [placed, mem_cons, Prod.mk.injEq] at hx hy
    rcases hx with ⟨rfl, rfl⟩ | hx
    · rcases hy with ⟨rfl, rfl⟩ | hy
      · omega
      · cases es with
        | nil => simp [placed] at hy
        | cons f fs =>
          simp only [placed, mem_cons, Prod.mk.injEq] at hy
          rcases hy with ⟨-, rfl⟩ | hy
          · -- the second cell is free behind a free one
            simp [h.2.2.2.1 hd] at hc
          · have hle := (placed_le hy).1
            have hfpos := h.2.2.1
            omega
    · rcases hy with ⟨rfl, rfl⟩ | hy
      · have hle := (placed_le hx).1
        omega
      · exact ih h.2.2 hx hy

theorem map_snd_placed (a : Nat) (cs : List Cell) : (placed a cs).map Prod.snd = cs := by
  induction cs generalizing a with
  | nil => rfl
  | cons c cs ih => rw [placed, map_cons, ih]

theorem exists_placed_of_mem (a : Nat) (h : c ∈ cs) : ∃ x, (x, c) ∈ placed a cs := by
  rw [← map_snd_placed a cs] at h
  simpa using h

/-- A used cell may follow. -/
theorem Coalesced.snoc_used (h : Coalesced pu cs) (hpos : 0 < c.size) (hused : c.used = true) :
    Coalesced pu (cs ++ [c]) := by
  induction cs generalizing pu with
  | nil => exact ⟨hpos, by simp [hused], trivial⟩
  | cons d ds ih => exact ⟨h.1, h.2.1, ih h.2.2⟩

/-- At the start of an interval lies a cell, unless it is empty. -/
theorem placed_start (a : Nat) (cs : List Cell) :
    (∃ d, (a, d) ∈ placed a cs) ∨ a = a + span cs := by
  cases cs with
  | nil => exact Or.inr rfl
  | cons d ds => exact Or.inl ⟨d, mem_cons_self⟩

/-- Where a cell ends the next one starts, or the interval ends. -/
theorem placed_next (h : (x, c) ∈ placed a cs) :
    (∃ d, (x + c.size, d) ∈ placed a cs) ∨ x + c.size = a + span cs := by
  obtain ⟨pre, post, rfl, rfl⟩ := mem_placed_iff.1 h
  rw [append_cons, placed_append]
  simp only [span_append, span, mem_append, Nat.add_zero]
  rcases placed_start (a + span pre + c.size) post with ⟨d, hd⟩ | hend
  · exact Or.inl ⟨d, Or.inr (by rwa [← Nat.add_assoc])⟩
  · exact Or.inr (by omega)

/-- A run of free cells is at most one cell. -/
theorem Coalesced.free_run {pre run post : List Cell} (h : Coalesced pu (pre ++ run ++ post))
    (hfree : ∀ c ∈ run, c.used = false) :
    run.length ≤ 1 := by
  induction pre generalizing pu with
  | cons d ds ih => exact ih h.2.2
  | nil =>
    match run, hfree with
    | [], _ => exact Nat.zero_le 1
    | [c], _ => exact Nat.le_refl 1
    | c :: d :: rest, hfree =>
      have hc := hfree c (by simp)
      have hd := h.2.2.2.1 (hfree d (by simp))
      simp [hc] at hd

/-! ## Canonicity -/

/-- The used cells of the first tiling are used cells of the second. -/
def UsedSub (a : Nat) (cs ds : List Cell) : Prop :=
  ∀ x c, c.used = true → (x, c) ∈ placed a cs → (x, c) ∈ placed a ds

/-- A free first cell reaches up to a used one, or to the end of the interval. -/
theorem free_head_size_le (hc : Coalesced true (c :: cs)) (hcf : c.used = false)
    (hspan : span (c :: cs) = span (d :: ds)) (hsub : UsedSub a (c :: cs) (d :: ds)) :
    d.size ≤ c.size := by
  by_contra hlt
  cases cs with
  | nil =>
    simp only [span] at hspan
    omega
  | cons e es =>
    have heu : e.used = true := by
      cases he : e.used with
      | true => rfl
      | false => exact absurd (hc.2.2.2.1 he) (by simp [hcf])
    have hmem := hsub (a + c.size) e heu (by simp [placed])
    simp only [placed, mem_cons, Prod.mk.injEq] at hmem
    have hpos := hc.1
    rcases hmem with ⟨h, -⟩ | h
    · omega
    · have := (placed_le h).1
      omega

theorem usedSub_head (hd : 0 < d.size) (hcu : c.used = true)
    (hsub : UsedSub a (c :: cs) (d :: ds)) : c = d := by
  have hmem := hsub a c hcu (by simp [placed])
  simp only [placed, mem_cons, Prod.mk.injEq, true_and] at hmem
  rcases hmem with h | h
  · exact h
  · have := (placed_le h).1
    omega

theorem usedSub_tail (hc : 0 < c.size) (hsub : UsedSub a (c :: cs) (c :: ds)) :
    UsedSub (a + c.size) cs ds := by
  intro x e heu hmem
  have h := hsub x e heu (by simp [placed, hmem])
  simp only [placed, mem_cons, Prod.mk.injEq] at h
  rcases h with ⟨rfl, -⟩ | h
  · have := (placed_le hmem).1
    omega
  · exact h

/-- **Canonicity.** Coalesced tilings of one interval with the same used cells are equal. -/
theorem eq_of_used_eq : ∀ {a : Nat}, Coalesced pu cs → Coalesced pu ds → span cs = span ds →
      UsedSub a cs ds → UsedSub a ds cs → cs = ds := by
  induction cs generalizing pu ds with
  | nil =>
    intro a _ hd hspan _ _
    cases ds with
    | nil => rfl
    | cons d ds => exact absurd hspan (Nat.ne_of_lt hd.span_pos)
  | cons c cs ih =>
    intro a hc hd hspan hsub hsub'
    cases ds with
    | nil => exact absurd hspan.symm (Nat.ne_of_lt hc.span_pos)
    | cons d ds =>
      have hcd : c = d := by
        cases hcu : c.used with
        | true => exact usedSub_head hd.1 hcu hsub
        | false =>
          cases hdu : d.used with
          | true => exact (usedSub_head hc.1 hdu hsub').symm
          | false =>
            -- both first cells are free: each one reaches as far as the other
            have hpu := hc.2.1 hcu
            subst hpu
            have h1 := free_head_size_le hc hcu hspan hsub
            have h2 := free_head_size_le hd hdu hspan.symm hsub'
            cases c with
            | mk s u =>
              cases d with
              | mk s' u' =>
                simp only at hcu hdu h1 h2
                subst hcu hdu
                have : s = s' := by omega
                rw [this]
      subst hcd
      have htail : span cs = span ds := by
        simp only [span] at hspan
        omega
      rw [ih hc.2.2 hd.2.2 htail (usedSub_tail hc.1 hsub) (usedSub_tail hd.1 hsub')]

/-- A coalesced tiling of a nonempty interval without used cells is one free cell. -/
theorem eq_single_of_no_used (h : Coalesced true cs) (hpos : 0 < span cs)
    (hfree : ∀ x c, (x, c) ∈ placed a cs → c.used = false) :
    cs = [⟨span cs, false⟩] := by
  have hone : Coalesced true [⟨span cs, false⟩] := ⟨hpos, fun _ => rfl, trivial⟩
  refine eq_of_used_eq (a := a) h hone (by simp [span]) ?_ ?_
  · intro x c hcu hmem
    exact absurd (hfree x c hmem) (by simp [hcu])
  · intro x c hcu hmem
    simp only [placed, mem_cons, not_mem_nil, or_false, Prod.mk.injEq] at hmem
    obtain ⟨-, rfl⟩ := hmem
    simp at hcu

/-! ## Concatenation -/

/-- Whether the last cell is used; `pu` when there is none. -/
def lastUsed : Bool → List Cell → Bool
  | pu, [] => pu
  | _, c :: cs => lastUsed c.used cs

@[simp] theorem lastUsed_append (pu : Bool) (xs ys : List Cell) :
    lastUsed pu (xs ++ ys) = lastUsed (lastUsed pu xs) ys := by
  induction xs generalizing pu with
  | nil => rfl
  | cons c cs ih => simp only [cons_append, lastUsed, ih]

end PlanckOS.Lib.Tiling
