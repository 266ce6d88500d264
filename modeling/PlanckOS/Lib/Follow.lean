import PlanckOS.Lib.Fallible

/-!
# One computation following another

Two computations run on states of different types. `Op.Follows R x y` says that whenever `x` returns
a value, `y` returns the same value from every related state and the states stay related; nothing is
said when `x` fails. With equal states and an invariant as the relation, it says that `x` keeps the
invariant whenever it returns (`Keeping`).

The rules go through the computation: `follows_pure`, `Op.Follows.bind`, and one for each loop.
-/

set_option autoImplicit false

namespace PlanckOS.Lib.Fallible

open Lib.Loop

variable {σ τ ε α β : Type} {R : σ → τ → Prop}

/-- Values of `x` are values of `y`. -/
def Op.Follows (R : σ → τ → Prop) (x : Op σ ε α) (y : Op τ ε α) : Prop :=
  ∀ ⦃s : σ⦄ ⦃t : τ⦄, R s t → (x s).Sat (fun a s' => ∃ t', y t = .ok a t' ∧ R s' t') fun _ _ => True

/-- Equal states that have the property `I`. -/
def Keeping (I : σ → Prop) (s t : σ) : Prop := s = t ∧ I s

theorem Op.Follows.ok {x : Op σ ε α} {y : Op τ ε α} (h : x.Follows R y) {s s' : σ} {t : τ} {a : α}
    (hR : R s t) (hx : x s = .ok a s') : ∃ t', y t = .ok a t' ∧ R s' t' := (h hR).of_ok hx

theorem follows_pure (a : α) :
    Op.Follows R (Pure.pure a : Op σ ε α) (Pure.pure a) := fun _ t h => ⟨t, rfl, h⟩

theorem follows_throw (e : ε) (y : Op τ ε α) : Op.Follows R (Op.throw e) y :=
  fun _ _ _ => trivial

theorem follows_panic (y : Op τ ε α) : Op.Follows R Op.panic y := fun _ _ _ => trivial

theorem Op.Follows.bind {x : Op σ ε α} {y : Op τ ε α} {f : α → Op σ ε β} {g : α → Op τ ε β}
    (hx : x.Follows R y) (hf : ∀ a, (f a).Follows R (g a)) : (x >>= f).Follows R (y >>= g) := by
  intro s t h
  apply sat_bind
  refine (hx h).mono ?_ fun _ _ h => h
  rintro a s' ⟨t', hy, h'⟩
  refine (hf a h').mono ?_ fun _ _ h => h
  rintro b s'' ⟨t'', hg, h''⟩
  exact ⟨t'', (Op.bind_ok hy).trans hg, h''⟩

theorem follows_forUpto {f : Nat → Op σ ε Unit} {g : Nat → Op τ ε Unit}
    (h : ∀ i, (f i).Follows R (g i)) (n : Nat) : (Op.forUpto f n).Follows R (Op.forUpto g n) := by
  induction n with
  | zero => exact follows_pure ()
  | succ n ih => exact ih.bind fun _ => h n

theorem follows_loopM {f : α → Op σ ε (Flow α β)} {g : α → Op τ ε (Flow α β)}
    (h : ∀ a, (f a).Follows R (g a)) (n : Nat) (a : α) :
    (Op.loopM f n a).Follows R (Op.loopM g n a) := by
  induction n generalizing a with
  | zero => exact fun _ _ _ => trivial
  | succ n ih =>
    refine (h a).bind ?_
    rintro (a' | b)
    · exact ih a'
    · exact follows_pure b

end PlanckOS.Lib.Fallible
