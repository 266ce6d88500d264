import Mathlib.Data.Fintype.Pigeonhole
import PlanckOS.Lib.Fallible

/-!
# Walks along a successor function

A walk goes from `a` to `next a` and so on, until it comes to an element at which it stops. When the
elements it can come to are finitely many, it stops, within that many steps, exactly when it does
not run into a cycle first (`stop_before`, `Circles.not_stops`).

Two kinds of loops are such walks. A loop that leaves its state alone walks when each round goes to
the successor or leaves the loop (`Op.Walks`). A generator is a loop that also yields values: a call
of it runs up to the next value, and a caller collects the values of all calls. The rounds of all
calls together are one walk (`Op.Generates`). In both cases the loop exceeds its bound exactly when
the walk runs into a cycle (`Op.Walks.diverges_iff`, `Op.Generates.diverges_iff`).
-/

set_option autoImplicit false

namespace PlanckOS.Lib.Orbit

open Lib.Fallible Lib.Loop

variable {n k m : Nat}

/-! ## Walks and cycles -/

section Walks

variable {γ : Type} {next : γ → γ} {stops : γ → Prop} {a : γ}

/-- From `a` on the walk comes to an element a second time, and does not stop before. -/
def Circles (next : γ → γ) (stops : γ → Prop) (a : γ) : Prop :=
  ∃ i j, i < j ∧ next^[i] a = next^[j] a ∧ ∀ k < j, ¬ stops (next^[k] a)

/-- A walk on a cycle does not stop. -/
theorem Circles.not_stops (h : Circles next stops a) (k : Nat) : ¬ stops (next^[k] a) := by
  obtain ⟨i, j, hij, heq, hbefore⟩ := h
  induction k using Nat.strong_induction_on with
  | h k ih =>
    by_cases hk : k < j
    · exact hbefore k hk
    · -- one turn of the cycle earlier the walk was at the same element
      have hturn : next^[k] a = next^[k - j + i] a := by
        obtain ⟨m, rfl⟩ := Nat.exists_eq_add_of_le (Nat.le_of_not_lt hk)
        rw [Nat.add_sub_cancel_left, Nat.add_comm j m, Function.iterate_add_apply, ← heq,
          ← Function.iterate_add_apply]
      rw [hturn]
      exact ih _ (by omega)

/-- **A walk among finitely many elements stops or runs into a cycle.** -/
theorem stop_before {s : Finset γ} (hs : ∀ k, next^[k + 1] a ∈ s) (h : ¬ Circles next stops a) :
    ∃ k ≤ s.card, stops (next^[k] a) := by
  by_contra hnone
  push Not at hnone
  -- among the elements after one to `card + 1` steps two are the same
  obtain ⟨i, hi, j, hj, hne, heq⟩ := Finset.exists_ne_map_eq_of_card_lt_of_maps_to
    (s := Finset.range (s.card + 1)) (t := s) (f := fun k => next^[k + 1] a)
    (by rw [Finset.card_range]; exact Nat.lt_succ_self _)
    (fun k _ => hs k)
  have hcircles : ∀ i j, i < j → j < s.card + 1 → next^[i + 1] a = next^[j + 1] a →
      Circles next stops a := by
    intro i j hij hj heq
    exact ⟨i + 1, j + 1, Nat.succ_lt_succ hij, heq, fun k hk => hnone k (by omega)⟩
  rw [Finset.mem_range] at hi hj
  rcases Nat.lt_or_gt_of_ne hne with hlt | hlt
  · exact h (hcircles i j hlt hj heq)
  · exact h (hcircles j i hlt hi heq.symm)

end Walks

/-! ## Loops that leave the state alone -/

/-- The computation leaves a loop: with a value, with an error or with a panic. -/
def Leaves {σ ε α β : Type} : Outcome σ ε (Flow α β) → Prop
  | .ok (.done _) _ => True
  | .ok (.next _) _ => False
  | .err _ _ => True
  | .fault w => w = .panic

/-- In state `s` the rounds of the loop are a walk of the values' keys. -/
structure Op.Walks {σ ε α β γ : Type} (body : α → Op σ ε (Flow α β)) (s : σ) (key : α → γ)
    (next : γ → γ) (stops : γ → Prop) : Prop where
  goes : ∀ a, ¬ stops (key a) → ∃ b, body a s = .ok (.next b) s ∧ key b = next (key a)
  ends : ∀ a, stops (key a) → Leaves (body a s)

section Loops

variable {σ ε α β γ : Type} {body : α → Op σ ε (Flow α β)} {s : σ} {key : α → γ} {next : γ → γ}
  {stops : γ → Prop}

theorem loopM_of_leaves {a : α} (h : Leaves (body a s)) :
    Op.loopM body (n + 1) a s ≠ .fault .diverge := by
  intro hdiverge
  cases hbody : body a s with
  | ok r s' =>
    rw [hbody] at h
    cases r with
    | next b => exact h
    | done b => cases (Op.loopM_done hbody).symm.trans hdiverge
  | err e s' => cases (Op.loopM_err hbody).symm.trans hdiverge
  | fault w =>
    rw [hbody] at h
    cases h
    cases (Op.loopM_fault hbody).symm.trans hdiverge

/-- The loop exceeds a bound exactly when the walk does not stop within it. -/
theorem Op.Walks.loopM_eq_diverge_iff (h : Op.Walks body s key next stops) (n : Nat) (a : α) :
    Op.loopM body n a s = .fault .diverge ↔ ∀ k < n, ¬ stops (next^[k] (key a)) := by
  induction n generalizing a with
  | zero => exact iff_of_true rfl fun k hk => absurd hk (Nat.not_lt_zero k)
  | succ n ih =>
    by_cases hstop : stops (key a)
    · refine iff_of_false (loopM_of_leaves (h.ends a hstop)) fun hall => ?_
      exact hall 0 (Nat.succ_pos n) hstop
    · obtain ⟨b, hrun, hkey⟩ := h.goes a hstop
      rw [Op.loopM_next hrun, ih b, hkey]
      constructor
      · intro hall k hk
        cases k with
        | zero => exact hstop
        | succ k => exact hall k (by omega)
      · intro hall k hk
        exact hall (k + 1) (by omega)

/-- **A loop that walks among finitely many elements** exceeds a larger bound exactly when it runs
into a cycle. -/
theorem Op.Walks.diverges_iff (h : Op.Walks body s key next stops) {t : Finset γ} {a : α}
    (ht : ∀ k, next^[k + 1] (key a) ∈ t) (hn : t.card < n) :
    Op.loopM body n a s = .fault .diverge ↔ Circles next stops (key a) := by
  rw [h.loopM_eq_diverge_iff]
  constructor
  · intro hall
    by_contra hnot
    obtain ⟨k, hk, hstop⟩ := stop_before ht hnot
    exact hall k (by omega) hstop
  · intro hcircles k _
    exact hcircles.not_stops k

end Loops

/-! ## Generators -/

/-- One call of a caller that collects the values of a generator. -/
def collectStep {σ ε β : Type} (call : Op σ ε (Option β)) (acc : List β) :
    Op σ ε (Flow (List β) (List β)) := do
  match ← call with
  | some b => pure (.next (acc ++ [b]))
  | none => pure (.done acc)

/-- A round of a generator that ends all calls. -/
def Finishes {σ ε β : Type} : Outcome σ ε (Flow Unit (Option β)) → Prop
  | .ok (.done none) _ => True
  | .ok _ _ => False
  | .err _ _ => True
  | .fault w => w = .panic

/-- While `inv` holds the rounds of the generator are a walk of the states' keys; they go on in
silence or with a value. -/
structure Op.Generates {σ ε β γ : Type} (body : Unit → Op σ ε (Flow Unit (Option β)))
    (inv : σ → Prop) (key : σ → γ) (next : γ → γ) (stops : γ → Prop) : Prop where
  goes : ∀ s, inv s → ¬ stops (key s) → ∃ s', inv s' ∧ key s' = next (key s) ∧
    (body () s = .ok (.next ()) s' ∨ ∃ b, body () s = .ok (.done (some b)) s')
  ends : ∀ s, inv s → stops (key s) → Finishes (body () s)

section Generators

variable {σ ε β γ : Type} {body : Unit → Op σ ε (Flow Unit (Option β))} {inv : σ → Prop}
  {key : σ → γ} {next : γ → γ} {stops : γ → Prop} {s : σ}

variable (h : Op.Generates body inv key next stops)
include h

/-- Without a stop a call yields a value or exceeds its bound. -/
theorem Op.Generates.call_of_not_stops (n : Nat) (hs : inv s)
    (hnone : ∀ k, ¬ stops (next^[k] (key s))) :
    Op.loopM body n () s = .fault .diverge ∨
      ∃ b s', Op.loopM body n () s = .ok (some b) s' ∧ inv s' ∧
        ∀ k, ¬ stops (next^[k] (key s')) := by
  induction n generalizing s with
  | zero => exact .inl rfl
  | succ n ih =>
    obtain ⟨s', hs', hkey, hrun⟩ := h.goes s hs (hnone 0)
    have hnone' : ∀ k, ¬ stops (next^[k] (key s')) := fun k => hkey ▸ hnone (k + 1)
    rcases hrun with hrun | ⟨b, hrun⟩
    · rw [Op.loopM_next hrun]
      exact ih hs' hnone'
    · exact .inr ⟨b, s', Op.loopM_done hrun, hs', hnone'⟩

/-- Without a stop the caller exceeds every bound, in one call or over all calls. -/
theorem Op.Generates.collect_of_not_stops (m n : Nat) (acc : List β) (hs : inv s)
    (hnone : ∀ k, ¬ stops (next^[k] (key s))) :
    Op.loopM (collectStep (Op.loopM body m ())) n acc s = .fault .diverge := by
  induction n generalizing s acc with
  | zero => rfl
  | succ n ih =>
    rcases h.call_of_not_stops m hs hnone with hcall | ⟨b, s', hcall, hs', hnone'⟩
    · exact Op.loopM_fault (Op.bind_fault hcall)
    · have hstep : collectStep (Op.loopM body m ()) acc s = .ok (.next (acc ++ [b])) s' :=
        Op.bind_ok hcall
      rw [Op.loopM_next hstep]
      exact ih (acc ++ [b]) hs' hnone'

/-- With a stop ahead a call yields a value, with the stop nearer, or it is the last one. -/
theorem Op.Generates.call_of_stops (hs : inv s) (hstop : stops (next^[k] (key s))) (hn : k < n) :
    (∃ b s' j, Op.loopM body n () s = .ok (some b) s' ∧ inv s' ∧ j < k ∧
      stops (next^[j] (key s'))) ∨
      (∃ s', Op.loopM body n () s = .ok none s') ∨ (∃ e s', Op.loopM body n () s = .err e s') ∨
      Op.loopM body n () s = .fault .panic := by
  induction n generalizing s k with
  | zero => exact absurd hn (Nat.not_lt_zero k)
  | succ n ih =>
    by_cases hnow : stops (key s)
    · have hfinish := h.ends s hs hnow
      right
      cases hrun : body () s with
      | ok r s' =>
        rw [hrun] at hfinish
        rcases r with _ | _ | b
        · exact absurd hfinish id
        · exact .inl ⟨s', Op.loopM_done hrun⟩
        · exact absurd hfinish id
      | err e s' => exact .inr (.inl ⟨e, s', Op.loopM_err hrun⟩)
      | fault w =>
        rw [hrun] at hfinish
        cases hfinish
        exact .inr (.inr (Op.loopM_fault hrun))
    · obtain ⟨s', hs', hkey, hrun⟩ := h.goes s hs hnow
      -- the stop is not here, so that it is one round nearer
      obtain ⟨k, rfl⟩ : ∃ m, k = m + 1 := by
        cases k with
        | zero => exact absurd hstop hnow
        | succ m => exact ⟨m, rfl⟩
      have hstop' : stops (next^[k] (key s')) := hkey ▸ hstop
      rcases hrun with hrun | ⟨b, hrun⟩
      · rw [Op.loopM_next hrun]
        rcases ih hs' hstop' (Nat.lt_of_succ_lt_succ hn) with ⟨b, t, j, hcall, ht, hj, hat⟩ | hlast
        · exact .inl ⟨b, t, j, hcall, ht, by omega, hat⟩
        · exact .inr hlast
      · exact .inl ⟨b, s', k, Op.loopM_done hrun, hs', Nat.lt_succ_self k, hstop'⟩

/-- With a stop ahead the caller ends. -/
theorem Op.Generates.collect_of_stops (acc : List β) (hs : inv s)
    (hstop : stops (next^[k] (key s))) (hm : k < m) (hn : k < n) :
    Op.loopM (collectStep (Op.loopM body m ())) n acc s ≠ .fault .diverge := by
  induction n generalizing s acc k with
  | zero => exact absurd hn (Nat.not_lt_zero k)
  | succ n ih =>
    rcases h.call_of_stops hs hstop hm with
      ⟨b, s', j, hcall, hs', hj, hstop'⟩ | ⟨s', hcall⟩ | ⟨e, s', hcall⟩ | hcall
    · have hstep : collectStep (Op.loopM body m ()) acc s = .ok (.next (acc ++ [b])) s' :=
        Op.bind_ok hcall
      rw [Op.loopM_next hstep]
      exact ih (acc ++ [b]) hs' hstop' (by omega) (by omega)
    · have hstep : collectStep (Op.loopM body m ()) acc s = .ok (.done acc) s' := Op.bind_ok hcall
      rw [Op.loopM_done hstep]
      rintro ⟨⟩
    · have hstep : collectStep (Op.loopM body m ()) acc s = .err e s' := Op.bind_err hcall
      rw [Op.loopM_err hstep]
      rintro ⟨⟩
    · have hstep : collectStep (Op.loopM body m ()) acc s = .fault .panic := Op.bind_fault hcall
      rw [Op.loopM_fault hstep]
      rintro ⟨⟩

/-- **Collecting the values of a generator** that walks among finitely many elements exceeds larger
bounds exactly when the walk runs into a cycle. -/
theorem Op.Generates.diverges_iff {t : Finset γ} (ht : ∀ k, next^[k + 1] (key s) ∈ t)
    (hm : t.card < m) (hn : t.card < n) (acc : List β) (hs : inv s) :
    Op.loopM (collectStep (Op.loopM body m ())) n acc s = .fault .diverge ↔
      Circles next stops (key s) := by
  constructor
  · intro hdiverge
    by_contra hnot
    obtain ⟨k, hk, hstop⟩ := stop_before ht hnot
    exact h.collect_of_stops acc hs hstop (by omega) (by omega) hdiverge
  · intro hcircles
    exact h.collect_of_not_stops m n acc hs hcircles.not_stops

end Generators

end PlanckOS.Lib.Orbit
