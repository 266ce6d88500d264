import Mathlib.Data.Finset.Card
import Mathlib.Algebra.BigOperators.Group.List.Basic
import Mathlib.Order.Interval.Finset.Nat
import Mathlib.Tactic

/-!
# Sums over families of intervals

Disjoint intervals below a bound have total length at most the bound, and changing a family at one
place changes its sum there. Both are used for counters that add up over the members of a list.
-/

set_option autoImplicit false

namespace PlanckOS.Lib.Intervals

open List

universe u

variable {α : Type u}

/-- The points of disjoint intervals, counted. -/
theorem exists_points (lo hi : α → Nat) (l : List α)
    (hdisj : l.Pairwise fun a b => hi a ≤ lo b ∨ hi b ≤ lo a) :
    ∃ S : Finset Nat, (∀ x, x ∈ S ↔ ∃ a ∈ l, lo a ≤ x ∧ x < hi a) ∧
      S.card = (l.map fun a => hi a - lo a).sum := by
  induction l with
  | nil => exact ⟨∅, by simp, by simp⟩
  | cons a l ih =>
    obtain ⟨hhead, htail⟩ := pairwise_cons.1 hdisj
    obtain ⟨S, hmem, hcard⟩ := ih htail
    have hsep : Disjoint (Finset.Ico (lo a) (hi a)) S := by
      refine Finset.disjoint_left.2 fun x hx hxS => ?_
      obtain ⟨b, hb, h1, h2⟩ := (hmem x).1 hxS
      have hx' := Finset.mem_Ico.1 hx
      rcases hhead b hb with h | h <;> omega
    refine ⟨Finset.Ico (lo a) (hi a) ∪ S, fun x => ?_, ?_⟩
    · simp only [Finset.mem_union, Finset.mem_Ico, hmem, mem_cons, exists_eq_or_imp]
    · rw [Finset.card_union_of_disjoint hsep, hcard, Nat.card_Ico]
      simp

/-- Disjoint intervals below `N` have total length at most `N`. -/
theorem sum_length_le {lo hi : α → Nat} {l : List α} {N : Nat}
    (hdisj : l.Pairwise fun a b => hi a ≤ lo b ∨ hi b ≤ lo a) (hN : ∀ a ∈ l, hi a ≤ N) :
    (l.map fun a => hi a - lo a).sum ≤ N := by
  obtain ⟨S, hmem, hcard⟩ := exists_points lo hi l hdisj
  rw [← hcard]
  have hsub : S ⊆ Finset.range N := by
    intro x hx
    obtain ⟨a, ha, -, hx'⟩ := (hmem x).1 hx
    have := hN a ha
    exact Finset.mem_range.2 (by omega)
  calc S.card ≤ (Finset.range N).card := Finset.card_le_card hsub
    _ = N := Finset.card_range N

/-- Changing one summand. -/
theorem sum_map_update [DecidableEq α] {l : List α} (hl : l.Nodup) {a : α} (ha : a ∈ l)
    (f g : α → Nat) (hfg : ∀ b ∈ l, b ≠ a → g b = f b) :
    (l.map g).sum + f a = (l.map f).sum + g a := by
  induction l with
  | nil => simp at ha
  | cons b l ih =>
    obtain ⟨hb, hl'⟩ := nodup_cons.1 hl
    simp only [map_cons, sum_cons]
    by_cases hba : b = a
    · subst hba
      have hrest : l.map g = l.map f :=
        map_congr_left fun c hc => hfg c (mem_cons_of_mem _ hc)
          fun h => hb (h ▸ hc)
      rw [hrest]
      omega
    · have ha' : a ∈ l := (mem_cons.1 ha).resolve_left (Ne.symm hba)
      have := ih hl' ha' fun c hc => hfg c (mem_cons_of_mem _ hc)
      have hb' := hfg b mem_cons_self hba
      omega

/-- A list of different numbers below `N` is not longer than `N`. -/
theorem length_le_of_nodup {l : List Nat} {N : Nat} (hl : l.Nodup) (hN : ∀ x ∈ l, x < N) :
    l.length ≤ N := by
  rw [← toFinset_card_of_nodup hl]
  have hsub : l.toFinset ⊆ Finset.range N := fun x hx =>
    Finset.mem_range.2 (hN x (mem_toFinset.1 hx))
  calc l.toFinset.card ≤ (Finset.range N).card := Finset.card_le_card hsub
    _ = N := Finset.card_range N

/-- Removing the one member with a given key. -/
theorem length_filter_key {f : α → Nat} {l : List α} {k : Nat} (hl : (l.map f).Nodup)
    (hk : k ∈ l.map f) : (l.filter fun a => f a != k).length + 1 = l.length := by
  induction l with
  | nil => simp at hk
  | cons a l ih =>
    obtain ⟨ha, hl'⟩ := nodup_cons.1 hl
    by_cases hak : f a = k
    · have hrest : l.filter (fun b => f b != k) = l := by
        refine filter_eq_self.2 fun b hb => bne_iff_ne.2 fun hbk => ha ?_
        exact mem_map.2 ⟨b, hb, hbk.trans hak.symm⟩
      simp [hak, hrest]
    · have hk' : k ∈ l.map f := (mem_cons.1 hk).resolve_left (Ne.symm hak)
      have := ih hl' hk'
      simp [hak, this]

end PlanckOS.Lib.Intervals
