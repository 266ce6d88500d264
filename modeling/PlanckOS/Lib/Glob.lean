import Mathlib.Tactic

/-!
# Wildcard patterns

A pattern is a list of tokens, and `Matches` says which words it matches: `star` stands for any
sequence, `any` for any single element and `lit a` for `a`. There is one lemma for each token
(`matches_star_iff`, `matches_any_iff`, `matches_lit_iff`), which also make the relation decidable.

`trim` takes the stars at the end off a pattern. What is left does not match the empty word
(`trim_matches_nil`), so a matcher that never tries the end of a word behind a star still finds all
matches of a trimmed pattern.
-/

set_option autoImplicit false

namespace PlanckOS.Lib.Glob

open List

universe u

variable {α : Type u}

/-- A token of a pattern. -/
inductive Token (α : Type u) where
  | star
  | any
  | lit (a : α)

/-- The pattern matches the whole word. -/
inductive Matches : List (Token α) → List α → Prop
  | nil : Matches [] []
  | star {p : List (Token α)} {v : List α} (u : List α) (h : Matches p v) :
    Matches (.star :: p) (u ++ v)
  | any {p : List (Token α)} {v : List α} (a : α) (h : Matches p v) : Matches (.any :: p) (a :: v)
  | lit {p : List (Token α)} {v : List α} (a : α) (h : Matches p v) : Matches (.lit a :: p) (a :: v)

variable {p : List (Token α)} {w v : List α} {a b : α}

@[simp] theorem matches_nil_iff : Matches [] w ↔ w = [] := by
  constructor
  · rintro ⟨⟩
    rfl
  · rintro rfl
    exact .nil

theorem matches_star_iff : Matches (.star :: p) w ↔ ∃ k ≤ w.length, Matches p (w.drop k) := by
  constructor
  · intro h
    cases h with
    | star u h =>
      refine ⟨u.length, ?_, ?_⟩
      · rw [length_append]
        omega
      · rwa [drop_left]
  · rintro ⟨k, -, h⟩
    rw [← take_append_drop k w]
    exact .star _ h

theorem matches_any_iff : Matches (.any :: p) (a :: v) ↔ Matches p v := by
  constructor
  · rintro ⟨⟩
    assumption
  · exact .any a

theorem matches_lit_iff : Matches (.lit b :: p) (a :: v) ↔ a = b ∧ Matches p v := by
  constructor
  · rintro ⟨⟩
    exact ⟨rfl, by assumption⟩
  · rintro ⟨rfl, h⟩
    exact .lit a h

@[simp] theorem not_matches_any_nil : ¬ Matches (.any :: p) ([] : List α) := by
  rintro ⟨⟩

@[simp] theorem not_matches_lit_nil : ¬ Matches (.lit b :: p) ([] : List α) := by
  rintro ⟨⟩

/-- The relation can be decided along the pattern. -/
instance Matches.instDecidable [DecidableEq α] :
    (p : List (Token α)) → (w : List α) → Decidable (Matches p w)
  | [], _ => decidable_of_iff _ matches_nil_iff.symm
  | .star :: p, w =>
      have := fun k => Matches.instDecidable p (w.drop k)
      decidable_of_iff (∃ k < w.length + 1, Matches p (w.drop k)) (by
        rw [matches_star_iff]
        simp only [Nat.lt_succ_iff])
  | .any :: _, [] => isFalse not_matches_any_nil
  | .any :: p, _ :: v =>
      have := Matches.instDecidable p v
      decidable_of_iff _ matches_any_iff.symm
  | .lit _ :: _, [] => isFalse not_matches_lit_nil
  | .lit _ :: p, _ :: v =>
      have := Matches.instDecidable p v
      decidable_of_iff _ matches_lit_iff.symm

/-! ## Stars at the end -/

/-- The pattern without the stars at its end. -/
def trim : List (Token α) → List (Token α)
  | [] => []
  | .star :: p => if (trim p).isEmpty then [] else .star :: trim p
  | t :: p => t :: trim p

/-- A trimmed pattern does not match the empty word. -/
theorem trim_matches_nil (h : Matches (trim p) ([] : List α)) : trim p = [] := by
  induction p with
  | nil => rfl
  | cons t p ih =>
    cases t with
    | any => exact absurd h not_matches_any_nil
    | lit a => exact absurd h not_matches_lit_nil
    | star =>
      rw [trim] at h ⊢
      split at h
      next hp => rw [if_pos hp]
      next hp =>
        obtain ⟨k, -, h⟩ := matches_star_iff.mp h
        rw [drop_nil] at h
        exact absurd (isEmpty_iff.mpr (ih h)) hp

/-- A pattern that does not end in a star is trimmed. -/
theorem trim_of_last (hlast : p.getLast? ≠ some .star) : trim p = p := by
  induction p with
  | nil => rfl
  | cons t p ih =>
    rcases eq_or_ne p [] with rfl | hp
    · cases t with
      | star => exact absurd rfl hlast
      | any => rfl
      | lit a => rfl
    · have htail : trim p = p := by
        refine ih ?_
        rwa [getLast?_cons_of_ne_nil hp] at hlast
      cases t with
      | star =>
        rw [trim, htail, if_neg]
        rwa [List.isEmpty_iff]
      | any =>
        show Token.any :: trim p = _
        rw [htail]
      | lit a =>
        show Token.lit a :: trim p = _
        rw [htail]

end PlanckOS.Lib.Glob
