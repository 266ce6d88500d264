import PlanckOS.Lib.Loop

/-!
# Stateful operations that can fail

`Op σ ε α` is a computation on a state `σ`. It ends with a value, or with an error `ε` that the
caller sees, the state being what it was when the error occurred; or it does not end properly at
all, by a panic or because a loop runs for ever.

`Outcome.Sat` is the partial correctness judgement: what holds when the computation returns a value
and what holds when it returns an error. Its rules follow the way computations are put together:
`sat_pure`, `sat_throw`, `sat_bind`, and an invariant rule for loops, `sat_loopM`.
`Op.ReadOnly` says of a computation that it never changes the state.
`Outcome.Returns` is the total one: the computation returned, and the same holds. Its loop rule
`returns_loopM` asks for a measure that every round decreases.
-/

set_option autoImplicit false

namespace PlanckOS.Lib.Fallible

open Lib.Loop

variable {σ ε α β : Type}

/-- Ends that no caller sees. -/
inductive Fault where
  | panic
  | diverge
  deriving DecidableEq, Repr

/-- How a computation ends. -/
inductive Outcome (σ ε α : Type) where
  | ok (a : α) (s : σ)
  | err (e : ε) (s : σ)
  | fault (f : Fault)

/-- The state after a computation that returned, with a value or with an error. -/
def Outcome.after : Outcome σ ε α → Option σ
  | .ok _ s => some s
  | .err _ s => some s
  | .fault _ => none

/-- A computation on a state. -/
def Op (σ ε α : Type) : Type := σ → Outcome σ ε α

section Runs

variable {x : Op σ ε α} {t : σ}

/-- What holds after a run from a given state can be decided. -/
instance {P : α → σ → Prop} [∀ a s, Decidable (P a s)] : Decidable (∃ a s, x t = .ok a s ∧ P a s) :=
  match x t with
  | .ok a s => decidable_of_iff (P a s) (by simp)
  | .err _ _ | .fault _ => isFalse (by simp)

instance {P : ε → σ → Prop} [∀ e s, Decidable (P e s)] :
    Decidable (∃ e s, x t = .err e s ∧ P e s) :=
  match x t with
  | .err e s => decidable_of_iff (P e s) (by simp)
  | .ok _ _ | .fault _ => isFalse (by simp)

instance {w : Fault} : Decidable (x t = .fault w) :=
  match x t with
  | .fault w' => decidable_of_iff (w' = w) (by simp)
  | .ok _ _ | .err _ _ => isFalse (by simp)

instance : Decidable (∃ a s, x t = .ok a s) :=
  decidable_of_iff (∃ a s, x t = .ok a s ∧ True) (by simp)

instance {a : α} {P : σ → Prop} [DecidableEq α] [DecidablePred P] :
    Decidable (∃ s, x t = .ok a s ∧ P s) :=
  decidable_of_iff (∃ a' s, x t = .ok a' s ∧ a' = a ∧ P s) (by simp)

instance {a : α} [DecidableEq α] : Decidable (∃ s, x t = .ok a s) :=
  decidable_of_iff (∃ s, x t = .ok a s ∧ True) (by simp)

instance {e : ε} {P : σ → Prop} [DecidableEq ε] [DecidablePred P] :
    Decidable (∃ s, x t = .err e s ∧ P s) :=
  decidable_of_iff (∃ e' s, x t = .err e' s ∧ e' = e ∧ P s) (by simp)

instance {e : ε} [DecidableEq ε] : Decidable (∃ s, x t = .err e s) :=
  decidable_of_iff (∃ s, x t = .err e s ∧ True) (by simp)

end Runs

namespace Op

/-- Return a value. -/
def pure (a : α) : Op σ ε α := fun s => .ok a s

/-- Continue with the value, or stop. -/
def bind (x : Op σ ε α) (f : α → Op σ ε β) : Op σ ε β := fun s =>
  match x s with
  | .ok a s' => f a s'
  | .err e s' => .err e s'
  | .fault w => .fault w

instance : Monad (Op σ ε) where
  pure := Op.pure
  bind := Op.bind

/-- Return an error. -/
def throw (e : ε) : Op σ ε α := fun s => .err e s

/-- An index out of bounds, or an overflow that is checked. -/
def panic : Op σ ε α := fun _ => .fault .panic

/-- The current state. -/
def get : Op σ ε σ := fun s => .ok s s

/-- Change the state. -/
def modify (f : σ → σ) : Op σ ε Unit := fun s => .ok () (f s)

/-- Run `body 0`, …, `body (n - 1)`. -/
def forUpto (body : Nat → Op σ ε Unit) : Nat → Op σ ε Unit
  | 0 => Op.pure ()
  | n + 1 => (forUpto body n).bind fun _ => body n

/-- At most `n` rounds of `body`. -/
def loopM (body : α → Op σ ε (Flow α β)) : Nat → α → Op σ ε β
  | 0, _ => fun _ => .fault .diverge
  | n + 1, a => (body a).bind fun
      | .next a' => loopM body n a'
      | .done b => Op.pure b

variable {x : Op σ ε α} {f : α → Op σ ε β} {s s' : σ} {a : α} {e : ε}

@[simp] theorem pure_run (a : α) (s : σ) : (Pure.pure a : Op σ ε α) s = .ok a s := rfl

@[simp] theorem get_run (s : σ) : (get : Op σ ε σ) s = .ok s s := rfl

theorem bind_ok (h : x s = .ok a s') : (x >>= f) s = f a s' := by
  show Op.bind x f s = _
  rw [Op.bind, h]

theorem bind_err (h : x s = .err e s') : (x >>= f) s = .err e s' := by
  show Op.bind x f s = _
  rw [Op.bind, h]

theorem bind_fault {w : Fault} (h : x s = .fault w) : (x >>= f) s = .fault w := by
  show Op.bind x f s = _
  rw [Op.bind, h]

theorem bind_congr {y : Op σ ε α} (h : x s = y s') : (x >>= f) s = (y >>= f) s' := by
  show Op.bind x f s = Op.bind y f s'
  rw [Op.bind, Op.bind, h]

theorem bind_assoc {γ : Type} (x : Op σ ε α) (f : α → Op σ ε β) (g : β → Op σ ε γ) :
    (x >>= f) >>= g = x >>= fun a => f a >>= g := by
  funext s
  cases hx : x s with
  | ok a s' => rw [bind_congr (y := f a) (bind_ok hx), bind_ok hx]
  | err e s' => rw [bind_err (bind_err hx), bind_err hx]
  | fault w => rw [bind_fault (bind_fault hx), bind_fault hx]

theorem bind_pure (x : Op σ ε α) : (x >>= fun a => Pure.pure a) = x := by
  funext s
  cases hx : x s with
  | ok a s' => exact bind_ok hx
  | err e s' => exact bind_err hx
  | fault w => exact bind_fault hx

/-- A sequence that returns has returned from both of its parts. -/
theorem bind_eq_ok {b : β} (h : (x >>= f) s = .ok b s') :
    ∃ a t, x s = .ok a t ∧ f a t = .ok b s' := by
  change Op.bind x f s = _ at h
  rw [Op.bind] at h
  cases hx : x s with
  | ok a t =>
    rw [hx] at h
    exact ⟨a, t, rfl, h⟩
  | err e t =>
    rw [hx] at h
    cases h
  | fault w =>
    rw [hx] at h
    cases h

/-! The first round of a loop. -/

section Round

variable {body : α → Op σ ε (Flow α β)} {n : Nat} {a' : α} {b : β}

theorem loopM_next (h : body a s = .ok (.next a') s') :
    loopM body (n + 1) a s = loopM body n a' s' := by
  rw [loopM, Op.bind, h]

theorem loopM_done (h : body a s = .ok (.done b) s') : loopM body (n + 1) a s = .ok b s' := by
  rw [loopM, Op.bind, h]
  rfl

theorem loopM_err (h : body a s = .err e s') : loopM body (n + 1) a s = .err e s' := by
  rw [loopM, Op.bind, h]

theorem loopM_fault {w : Fault} (h : body a s = .fault w) : loopM body (n + 1) a s = .fault w := by
  rw [loopM, Op.bind, h]

end Round

end Op

/-! ## Partial correctness -/

/-- If the computation returned a value, `Q` holds of it, and if it returned an error, `E`. -/
def Outcome.Sat (o : Outcome σ ε α) (Q : α → σ → Prop) (E : ε → σ → Prop) : Prop :=
  match o with
  | .ok a s => Q a s
  | .err e s => E e s
  | .fault _ => True

variable {Q Q' I : α → σ → Prop} {E E' : ε → σ → Prop} {s s' : σ} {o : Outcome σ ε α} {a a' : α}
  {e : ε}

/-- What holds of the state afterwards, however the computation returns. -/
abbrev Outcome.Leaves (o : Outcome σ ε α) (P : σ → Prop) : Prop :=
  o.Sat (fun _ s => P s) fun _ s => P s

theorem Outcome.Sat.mono (h : o.Sat Q E) (hQ : ∀ a s, Q a s → Q' a s) (hE : ∀ e s, E e s → E' e s) :
    o.Sat Q' E' := by
  cases o with
  | ok a s => exact hQ a s h
  | err e s => exact hE e s h
  | fault _ => trivial

theorem sat_pure (h : Q a s) : ((pure a : Op σ ε α) s).Sat Q E := h

theorem sat_throw (h : E e s) : ((Op.throw e : Op σ ε α) s).Sat Q E := h

theorem sat_of_ok {x : Op σ ε α} (hx : x s = .ok a s') (h : Q a s') : (x s).Sat Q E := by
  rw [hx]
  exact h

/-- Sequencing. -/
theorem sat_bind {x : Op σ ε α} {f : α → Op σ ε β} {Q : β → σ → Prop}
    (h : (x s).Sat (fun a s' => (f a s').Sat Q E) E) : ((x >>= f) s).Sat Q E := by
  show (Op.bind x f s).Sat Q E
  rw [Op.bind]
  cases hx : x s with
  | ok a s' =>
    rw [hx] at h
    exact h
  | err e s' =>
    rw [hx] at h
    exact h
  | fault w => trivial

/-- Sequencing after a computation that is known to return. -/
theorem sat_bind_ok {x : Op σ ε α} {f : α → Op σ ε β} {Q : β → σ → Prop} (hx : x s = .ok a s')
    (h : (f a s').Sat Q E) : ((x >>= f) s).Sat Q E := by
  rw [Op.bind_ok hx]
  exact h

/-- The invariant rule: every round keeps the invariant or leaves with the postcondition. -/
theorem sat_loopM {body : α → Op σ ε (Flow α β)} {Q : β → σ → Prop}
    (hbody : ∀ a s, I a s → (body a s).Sat
      (fun r s' => match r with
        | .next a' => I a' s'
        | .done b => Q b s') E)
    {n : Nat} (ha : I a s) : (Op.loopM body n a s).Sat Q E := by
  induction n generalizing a s with
  | zero => trivial
  | succ n ih =>
    apply sat_bind
    refine (hbody a s ha).mono ?_ fun _ _ h => h
    intro r s' hr
    cases r with
    | next a' => exact ih hr
    | done b => exact hr

/-- The values and states in which a loop begins a round. -/
inductive Op.Rounds (body : α → Op σ ε (Flow α β)) (a : α) (s : σ) : α → σ → Prop
  | start : Op.Rounds body a s a s
  | next {a₁ a₂ : α} {s₁ s₂ : σ} (h : Op.Rounds body a s a₁ s₁)
      (hnext : body a₁ s₁ = .ok (.next a₂) s₂) : Op.Rounds body a s a₂ s₂

/-- What one round preserves holds in all of them. -/
theorem Op.Rounds.invariant {body : α → Op σ ε (Flow α β)} (h : Op.Rounds body a s a' s')
    (h₀ : I a s) (hstep : ∀ a₁ s₁ a₂ s₂, I a₁ s₁ → body a₁ s₁ = .ok (.next a₂) s₂ → I a₂ s₂) :
    I a' s' := by
  induction h with
  | start => exact h₀
  | next _ hnext ih => exact hstep _ _ _ _ ih hnext

/-- A round is the first one, or one of those from the second on. -/
theorem Op.Rounds.head {body : α → Op σ ε (Flow α β)} (h : Op.Rounds body a s a' s') :
    (a' = a ∧ s' = s) ∨
      ∃ a₁ s₁, body a s = .ok (.next a₁) s₁ ∧ Op.Rounds body a₁ s₁ a' s' := by
  induction h with
  | start => exact .inl ⟨rfl, rfl⟩
  | next _ hnext ih =>
    rcases ih with ⟨rfl, rfl⟩ | ⟨a₁, s₁, hfirst, hrest⟩
    · exact .inr ⟨_, _, hnext, .start⟩
    · exact .inr ⟨a₁, s₁, hfirst, hrest.next hnext⟩

/-- A computation that returned satisfies what was proved of it. -/
theorem Outcome.Sat.of_ok {x : Op σ ε α} (h : (x s).Sat Q E) (hx : x s = .ok a s') : Q a s' := by
  rw [hx] at h
  exact h

theorem Outcome.Sat.of_err {x : Op σ ε α} (h : (x s).Sat Q E) (hx : x s = .err e s') : E e s' := by
  rw [hx] at h
  exact h

/-- What holds after values and errors alike holds of the state after the computation. -/
theorem after_of_sat {P : σ → Prop} (h : o.Leaves P) (hs : o.after = some s) : P s := by
  cases o with
  | ok a t => exact Option.some.inj hs ▸ h
  | err e t => exact Option.some.inj hs ▸ h
  | fault w => cases hs

/-! ## Computations that leave the state alone -/

/-- The state after the computation is the one before it, whatever it returns. -/
def Op.ReadOnly (x : Op σ ε α) : Prop :=
  ∀ s, (x s).Sat (fun _ s' => s' = s) fun _ s' => s' = s

theorem Op.readOnly_pure (a : α) : (Pure.pure a : Op σ ε α).ReadOnly := fun _ => rfl

theorem Op.readOnly_throw (e : ε) : (Op.throw e : Op σ ε α).ReadOnly := fun _ => rfl

theorem Op.ReadOnly.bind {x : Op σ ε α} {f : α → Op σ ε β} (hx : x.ReadOnly)
    (hf : ∀ a, (f a).ReadOnly) : (x >>= f).ReadOnly := by
  intro s
  apply sat_bind
  refine (hx s).mono ?_ fun _ _ h => h
  rintro a s' rfl
  exact hf a s'

theorem Op.readOnly_loopM {body : α → Op σ ε (Flow α β)} (h : ∀ a, (body a).ReadOnly) (n : Nat)
    (a : α) : (Op.loopM body n a).ReadOnly := by
  intro s
  refine sat_loopM (I := fun _ s' => s' = s) ?_ rfl
  rintro a s' rfl
  refine (h a s').mono ?_ fun _ _ h => h
  rintro r s' rfl
  cases r <;> rfl

/-- The state after a value, and after an error. -/
theorem Op.ReadOnly.of_ok {x : Op σ ε α} (h : x.ReadOnly) (hx : x s = .ok a s') :
    s' = s := (h s).of_ok hx

theorem Op.ReadOnly.of_err {x : Op σ ε α} (h : x.ReadOnly) (hx : x s = .err e s') :
    s' = s := (h s).of_err hx

/-- Sequencing: what comes after the computation starts in the same state. -/
theorem Op.ReadOnly.sat_bind {x : Op σ ε α} {f : α → Op σ ε β} {Q : β → σ → Prop} (hx : x.ReadOnly)
    (h : ∀ a, x s = .ok a s → (f a s).Sat Q E) (herr : ∀ e, E e s) :
    ((x >>= f) s).Sat Q E := by
  apply Fallible.sat_bind
  cases hrun : x s with
  | ok a s' =>
    obtain rfl := hx.of_ok hrun
    exact h a hrun
  | err e s' =>
    obtain rfl := hx.of_err hrun
    exact herr e
  | fault w => trivial

/-! ## Total correctness -/

/-- The computation returned a value and `Q` holds of it, or it returned an error and `E` does. -/
def Outcome.Returns (o : Outcome σ ε α) (Q : α → σ → Prop) (E : ε → σ → Prop) : Prop :=
  match o with
  | .ok a s => Q a s
  | .err e s => E e s
  | .fault _ => False

theorem Outcome.Returns.sat (h : o.Returns Q E) : o.Sat Q E := by
  cases o with
  | ok a s => exact h
  | err e s => exact h
  | fault _ => trivial

theorem Outcome.Returns.mono (h : o.Returns Q E) (hQ : ∀ a s, Q a s → Q' a s)
    (hE : ∀ e s, E e s → E' e s) : o.Returns Q' E' := by
  cases o with
  | ok a s => exact hQ a s h
  | err e s => exact hE e s h
  | fault _ => exact h

/-- A computation without errors returns a value. -/
theorem Outcome.Returns.ok (h : o.Returns Q fun _ _ => False) : ∃ a s, o = .ok a s ∧ Q a s := by
  cases o with
  | ok a s => exact ⟨a, s, rfl, h⟩
  | err e s => exact h.elim
  | fault _ => exact h.elim

theorem returns_of_ok {x : Op σ ε α} (hx : x s = .ok a s') (h : Q a s') : (x s).Returns Q E := by
  rw [hx]
  exact h

theorem returns_of_err {x : Op σ ε α} (hx : x s = .err e s') (h : E e s') : (x s).Returns Q E := by
  rw [hx]
  exact h

/-- Sequencing. -/
theorem returns_bind {x : Op σ ε α} {f : α → Op σ ε β} {Q : β → σ → Prop}
    (h : (x s).Returns (fun a s' => (f a s').Returns Q E) E) : ((x >>= f) s).Returns Q E := by
  show (Op.bind x f s).Returns Q E
  rw [Op.bind]
  cases hx : x s with
  | ok a s' =>
    rw [hx] at h
    exact h
  | err e s' =>
    rw [hx] at h
    exact h
  | fault w =>
    rw [hx] at h
    exact h

/-- Sequencing after a computation that is known to return. -/
theorem returns_bind_ok {x : Op σ ε α} {f : α → Op σ ε β} {Q : β → σ → Prop} (hx : x s = .ok a s')
    (h : (f a s').Returns Q E) : ((x >>= f) s).Returns Q E := by
  rw [Op.bind_ok hx]
  exact h

/-- The invariant rule: every round keeps the invariant and decreases the measure, or leaves with
the postcondition. -/
theorem returns_loopM {body : α → Op σ ε (Flow α β)} (μ : α → Nat) {Q : β → σ → Prop}
    (hbody : ∀ a s, I a s → (body a s).Returns
      (fun r s' => match r with
        | .next a' => I a' s' ∧ μ a' < μ a
        | .done b => Q b s') E)
    {n : Nat} (ha : I a s) (hn : μ a < n) :
    (Op.loopM body n a s).Returns Q E := by
  induction n generalizing a s with
  | zero => exact absurd hn (Nat.not_lt_zero _)
  | succ n ih =>
    apply returns_bind
    refine (hbody a s ha).mono ?_ fun _ _ h => h
    intro r s' hr
    cases r with
    | next a' => exact ih hr.1 (by have := hr.2; omega)
    | done b => exact hr

end PlanckOS.Lib.Fallible
