import Mathlib.Tactic

/-!
# Labelled transition systems

`Reach init ok step` holds of the states that runs from `init` visit when every step they take
satisfies `ok` in the state before it. `Reach.invariant` is the induction rule: what holds
initially and is preserved by one step holds in every state reached. `runSteps` executes a list of
labels, `runOutputs` collects what a list of labels puts out, and `runAllowed` stops at a label
that is not allowed; `Reach.of_run` and `Reach.of_runAllowed` place the results of runs among the
states reached.
-/

set_option autoImplicit false

namespace PlanckOS.Lib.Transition

universe u v

variable {σ : Type u} {ι : Type v} {init : σ → Prop} {ok : σ → ι → Prop} {step : σ → ι → Option σ}
  {s s' : σ} {is : List ι}

/-- What holds after a partial run can be decided. -/
instance decidableExists {o : Option σ} : Decidable (∃ s, o = some s) :=
  decidable_of_iff (o.isSome = true) Option.isSome_iff_exists

/-- States reached from `init` by steps that satisfy `ok`. -/
inductive Reach (init : σ → Prop) (ok : σ → ι → Prop) (step : σ → ι → σ → Prop) : σ → Prop
  | init {s : σ} (h : init s) : Reach init ok step s
  | step {s s' : σ} {i : ι} (hs : Reach init ok step s) (hok : ok s i) (h : step s i s') :
      Reach init ok step s'

/-- The invariant rule. -/
theorem Reach.invariant {step : σ → ι → σ → Prop} {P : σ → Prop} (h₀ : ∀ s, init s → P s)
    (hstep : ∀ s i s', P s → ok s i → step s i s' → P s') {s : σ}
    (h : Reach init ok step s) : P s := by
  induction h with
  | init h => exact h₀ _ h
  | step _ hok h ih => exact hstep _ _ _ ih hok h

/-- Steps that satisfy a stronger condition reach no more states. -/
theorem Reach.mono {ok' : σ → ι → Prop} {step : σ → ι → σ → Prop} (h : Reach init ok step s)
    (himp : ∀ s i, ok s i → ok' s i) : Reach init ok' step s :=
  h.invariant (fun _ h => .init h) fun s i _ hs hok hstep => .step hs (himp s i hok) hstep

/-- Execute a list of labels with a partial step function. -/
def runSteps (step : σ → ι → Option σ) (s : σ) : List ι → Option σ
  | [] => some s
  | i :: is => (step s i).bind fun s' => runSteps step s' is

theorem runSteps_append (step : σ → ι → Option σ) (s : σ) (is js : List ι) :
    runSteps step s (is ++ js) = (runSteps step s is).bind fun s' => runSteps step s' js := by
  induction is generalizing s with
  | nil => rfl
  | cons i is ih =>
    rw [List.cons_append, runSteps, runSteps, Option.bind_assoc]
    exact congrArg (Option.bind (step s i)) (funext ih)

/-- Execute a list of labels and collect the outputs. -/
def runOutputs {ρ : Type v} (step : σ → ι → Option (σ × ρ)) (s : σ) : List ι → Option (List ρ)
  | [] => some []
  | i :: is => (step s i).bind fun r => (runOutputs step r.1 is).map (r.2 :: ·)

/-- A run whose labels are allowed in every state stays among the states reached. -/
theorem Reach.of_run (hs : Reach init ok (fun s i s' => step s i = some s') s)
    (hok : ∀ i ∈ is, ∀ t, ok t i) (h : runSteps step s is = some s') :
    Reach init ok (fun s i s' => step s i = some s') s' := by
  induction is generalizing s with
  | nil =>
    rw [runSteps, Option.some.injEq] at h
    exact h ▸ hs
  | cons i is ih =>
    rw [runSteps, Option.bind_eq_some_iff] at h
    obtain ⟨t, ht, hrest⟩ := h
    have hok' : ∀ j ∈ is, ∀ t, ok t j := fun j hj => hok j (List.mem_cons_of_mem _ hj)
    exact ih (.step hs (hok i List.mem_cons_self s) ht) hok' hrest

/-- Execute a list of labels as long as they are allowed. -/
def runAllowed (ok : σ → ι → Prop) [∀ s i, Decidable (ok s i)] (step : σ → ι → Option σ) (s : σ) :
    List ι → Option σ
  | [] => some s
  | i :: is => if ok s i then (step s i).bind fun s' => runAllowed ok step s' is else none

theorem Reach.of_runAllowed [∀ s i, Decidable (ok s i)]
    (hs : Reach init ok (fun s i s' => step s i = some s') s)
    (h : runAllowed ok step s is = some s') :
    Reach init ok (fun s i s' => step s i = some s') s' := by
  induction is generalizing s with
  | nil =>
    rw [runAllowed, Option.some.injEq] at h
    exact h ▸ hs
  | cons i is ih =>
    rw [runAllowed] at h
    by_cases hok : ok s i
    · rw [if_pos hok, Option.bind_eq_some_iff] at h
      obtain ⟨t, ht, hrest⟩ := h
      exact ih (.step hs hok ht) hrest
    · rw [if_neg hok] at h
      cases h

end PlanckOS.Lib.Transition
