import Mathlib.Tactic

/-!
# Loops with a round bound

A loop body maps a state either to the next state or to the value the loop leaves with. `loop`
runs it for a bounded number of rounds; `none` says that the bound was reached. A loop whose state
takes fewer values than the bound only reaches it when it revisits a state, that is when it never
ends.

`Visits` is the relation between a state and the states a loop comes to from it. A loop that
decreases a measure at every round ends (`loop_of_decreasing`), and so does one that climbs along a
bounded key (`Ascends.loop_ends`); a loop that stays in a set of states it never leaves from does
not (`loop_eq_none_of_closed`).
-/

set_option autoImplicit false

namespace PlanckOS.Lib.Loop

universe u v

variable {σ : Type u} {β : Type v}

/-- What one round of a loop does. -/
inductive Flow (σ : Type u) (β : Type v) where
  | next (s : σ)
  | done (b : β)

/-- At most `n` rounds of `body` from `s`. -/
def loop (body : σ → Flow σ β) : Nat → σ → Option β
  | 0, _ => none
  | n + 1, s =>
      match body s with
      | .next s' => loop body n s'
      | .done b => some b

variable {body : σ → Flow σ β}

theorem loop_next {n : Nat} {s s' : σ} (h : body s = .next s') :
    loop body (n + 1) s = loop body n s' := by
  simp only [loop, h]

theorem loop_done {n : Nat} {s : σ} {b : β} (h : body s = .done b) :
    loop body (n + 1) s = some b := by
  simp only [loop, h]

/-! ## The states a loop visits -/

/-- The loop comes from `s` to `t`. -/
def Visits (body : σ → Flow σ β) : σ → σ → Prop :=
  Relation.ReflTransGen fun s t => body s = .next t

/-- Every round goes to a larger key. -/
def Ascends (body : σ → Flow σ β) (key : σ → Nat) (s : σ) : Prop :=
  ∀ t t', Visits body s t → body t = .next t' → key t < key t'

/-- **Termination.** A loop ends when every round decreases a measure. -/
theorem loop_of_decreasing (μ : σ → Nat) {s : σ} {n : Nat}
    (hdec : ∀ t t', Visits body s t → body t = .next t' → μ t' < μ t) (hn : μ s < n) :
    ∃ b, loop body n s = some b := by
  induction n generalizing s with
  | zero => exact absurd hn (Nat.not_lt_zero _)
  | succ n ih =>
    cases hs : body s with
    | done b => exact ⟨b, loop_done hs⟩
    | next s' =>
      rw [loop_next hs]
      have hlt := hdec s s' .refl hs
      exact ih (fun t t' ht => hdec t t' (Relation.ReflTransGen.head hs ht)) (by omega)

/-- An ascending loop below a bound ends. -/
theorem Ascends.loop_ends {key : σ → Nat} {s : σ} {N n : Nat} (h : Ascends body key s)
    (hbound : ∀ t, Visits body s t → key t < N) (hn : N ≤ n) : ∃ b, loop body n s = some b := by
  have hstart := hbound s .refl
  refine loop_of_decreasing (fun t => N - 1 - key t) (fun t t' ht hnext => ?_) (by omega)
  have hup := h t t' ht hnext
  have hlt := hbound t' (ht.tail hnext)
  omega

/-- **Divergence.** A loop that goes on from every state of a set, within the set, does not end. -/
theorem loop_eq_none_of_closed {P : σ → Prop}
    (hclosed : ∀ t, P t → ∃ t', body t = .next t' ∧ P t') {s : σ} (hs : P s) (n : Nat) :
    loop body n s = none := by
  induction n generalizing s with
  | zero => rfl
  | succ n ih =>
    obtain ⟨t, hnext, ht⟩ := hclosed s hs
    rw [loop_next hnext]
    exact ih ht

end PlanckOS.Lib.Loop
