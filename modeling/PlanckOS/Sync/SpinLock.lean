import PlanckOS.Lib.Transition
import Mathlib.Logic.Function.Basic

/-!
# The spinlock of `src/hal/memory.rs`

Any number of cores run `lock(); critical section; unlock()` on one shared `SpinLock`. `lock` reads
the core's interrupt flag, stores it in the shared cell `saved_if`, clears the flag and spins on a
compare-exchange; `unlock` stores `false` into the lock flag, then reads `saved_if` and sets the
interrupt flag if it says so.

At most one core is inside (`exclusive_of_reachable`), for every interleaving. The interrupt flag is
a different matter. `saved_if` is written before the lock is won and read after it is released, so a
core that enters while another one is between its store and its read overwrites the other core's
value. Runs in which such a store repeats the value already saved restore every flag
(`spinLock_restores`); a run with two cores and different flags does not (`flag_lost`).
-/

set_option autoImplicit false

namespace PlanckOS.Sync

open Lib.Transition

universe u

/-! ## Model -/

/-- Where a core stands between two calls of `lock`. -/
inductive Pc where
  | outside
  /-- `pushfq` was read, `if_set` is in a local. -/
  | observed (ifSet : Bool)
  /-- `saved_if` is stored, interrupts are not disabled yet. -/
  | saved
  /-- Interrupts are disabled, the compare-exchange has not succeeded. -/
  | spinning
  | critical
  /-- The lock flag is stored back to `false`, `saved_if` is not read yet. -/
  | released
  deriving DecidableEq, Repr

/-- A core: its program counter, its own interrupt flag, and the value that flag had when the
current `lock` was called. -/
structure Core where
  pc : Pc
  intFlag : Bool
  entryFlag : Bool
  deriving DecidableEq, Repr

/-- The shared cells. -/
structure SpinLock where
  flag : Bool
  savedIf : Bool
  deriving DecidableEq, Repr

/-- `SpinLock::new`. -/
def SpinLock.new : SpinLock := ⟨false, true⟩

/-- The lock and the cores that use it. -/
structure LockState (κ : Type u) where
  lock : SpinLock
  core : κ → Core

/-- The steps of `lock` and `unlock`. -/
inductive LockStep where
  | readFlag
  | storeSavedIf
  | clearFlag
  | compareExchange
  | storeFlag
  | restoreFlag
  deriving DecidableEq, Repr

variable {κ : Type u} [DecidableEq κ]

namespace LockState

variable {s s' : LockState κ} {i j : κ} {a : LockStep} {l : SpinLock} {c : Core}

section

variable (s : LockState κ)

/-- The state after core `i` moved to `c` and the shared cells to `l`. -/
def put (i : κ) (l : SpinLock) (c : Core) : LockState κ :=
  ⟨l, Function.update s.core i c⟩

/-- One step of core `i`; `none` when the core is not at that step. -/
def step (i : κ) : LockStep → Option (LockState κ)
  | .readFlag =>
      match (s.core i).pc with
      | .outside =>
          let ifSet := (s.core i).intFlag
          some (s.put i s.lock ⟨.observed ifSet, (s.core i).intFlag, ifSet⟩)
      | _ => none
  | .storeSavedIf =>
      match (s.core i).pc with
      | .observed ifSet =>
          some (s.put i { s.lock with savedIf := ifSet } { s.core i with pc := .saved })
      | _ => none
  | .clearFlag =>
      match (s.core i).pc with
      | .saved => some (s.put i s.lock { s.core i with pc := .spinning, intFlag := false })
      | _ => none
  | .compareExchange =>
      match (s.core i).pc with
      | .spinning =>
          if s.lock.flag then some s
          else some (s.put i { s.lock with flag := true } { s.core i with pc := .critical })
      | _ => none
  | .storeFlag =>
      match (s.core i).pc with
      | .critical =>
          some (s.put i { s.lock with flag := false } { s.core i with pc := .released })
      | _ => none
  | .restoreFlag =>
      match (s.core i).pc with
      | .released =>
          let intFlag := if s.lock.savedIf then true else (s.core i).intFlag
          some (s.put i s.lock { s.core i with pc := .outside, intFlag })
      | _ => none

/-- The step as a relation, labelled with the core. -/
abbrev Steps (a : κ × LockStep) (s' : LockState κ) : Prop :=
  s.step a.1 a.2 = some s'

/-- A new lock, every core outside with any interrupt flag. -/
def Initial : Prop := s.lock = SpinLock.new ∧ ∀ i, (s.core i).pc = .outside

/-- Core `j` has stored `saved_if` and not yet read it back. -/
def InWindow (j : κ) : Prop :=
  (s.core j).pc = .saved ∨ (s.core j).pc = .spinning ∨ (s.core j).pc = .critical ∨
    (s.core j).pc = .released
  deriving Decidable

/-- A store to `saved_if` repeats the value of every core that has stored and not read back. -/
def StoresAgree (a : κ × LockStep) : Prop :=
  a.2 = .storeSavedIf → ∀ j, s.InWindow j → (s.core j).entryFlag = (s.core a.1).entryFlag

instance [Fintype κ] (s : LockState κ) (a : κ × LockStep) : Decidable (s.StoresAgree a) :=
  inferInstanceAs (Decidable (_ → ∀ _, _ → _))

/-- Run a schedule. -/
def run (schedule : List (κ × LockStep)) : Option (LockState κ) :=
  runSteps (fun s a => s.step a.1 a.2) s schedule

end

/-- Run a schedule as long as its stores agree. -/
def runAgreeing [Fintype κ] (s : LockState κ) (schedule : List (κ × LockStep)) :
    Option (LockState κ) :=
  runAllowed StoresAgree (fun s a => s.step a.1 a.2) s schedule

/-- States reached by any interleaving. -/
abbrev Reachable : LockState κ → Prop := Reach Initial (fun _ _ => True) Steps

/-- States reached by interleavings whose stores agree. -/
abbrev ReachableAgreeing : LockState κ → Prop := Reach Initial StoresAgree Steps

/-! ## The steps by cases -/

/-- What a step that was taken looks like. -/
inductive Moved (s : LockState κ) (i : κ) : LockStep → LockState κ → Prop
  | readFlag (h : (s.core i).pc = .outside) :
      Moved s i .readFlag (s.put i s.lock
        ⟨.observed (s.core i).intFlag, (s.core i).intFlag, (s.core i).intFlag⟩)
  | storeSavedIf {ifSet : Bool} (h : (s.core i).pc = .observed ifSet) :
      Moved s i .storeSavedIf
        (s.put i { s.lock with savedIf := ifSet } { s.core i with pc := .saved })
  | clearFlag (h : (s.core i).pc = .saved) :
      Moved s i .clearFlag (s.put i s.lock { s.core i with pc := .spinning, intFlag := false })
  | spin (h : (s.core i).pc = .spinning) (hflag : s.lock.flag = true) :
      Moved s i .compareExchange s
  | enter (h : (s.core i).pc = .spinning) (hflag : s.lock.flag = false) :
      Moved s i .compareExchange
        (s.put i { s.lock with flag := true } { s.core i with pc := .critical })
  | storeFlag (h : (s.core i).pc = .critical) :
      Moved s i .storeFlag
        (s.put i { s.lock with flag := false } { s.core i with pc := .released })
  | restoreFlag (h : (s.core i).pc = .released) :
      Moved s i .restoreFlag (s.put i s.lock { s.core i with
        pc := .outside
        intFlag := if s.lock.savedIf then true else (s.core i).intFlag })

theorem moved_of_step (h : s.step i a = some s') : Moved s i a s' := by
  cases a with
  | readFlag =>
    cases hpc : (s.core i).pc <;> simp only [step, hpc, Option.some.injEq, reduceCtorEq] at h
    exact h ▸ .readFlag hpc
  | storeSavedIf =>
    cases hpc : (s.core i).pc <;> simp only [step, hpc, Option.some.injEq, reduceCtorEq] at h
    exact h ▸ .storeSavedIf hpc
  | clearFlag =>
    cases hpc : (s.core i).pc <;> simp only [step, hpc, Option.some.injEq, reduceCtorEq] at h
    exact h ▸ .clearFlag hpc
  | compareExchange =>
    cases hpc : (s.core i).pc <;> simp only [step, hpc, reduceCtorEq] at h
    cases hflag : s.lock.flag with
    | true =>
      simp only [hflag, if_true, Option.some.injEq] at h
      exact h ▸ .spin hpc hflag
    | false =>
      simp only [hflag, Bool.false_eq_true, if_false, Option.some.injEq] at h
      exact h ▸ .enter hpc hflag
  | storeFlag =>
    cases hpc : (s.core i).pc <;> simp only [step, hpc, Option.some.injEq, reduceCtorEq] at h
    exact h ▸ .storeFlag hpc
  | restoreFlag =>
    cases hpc : (s.core i).pc <;> simp only [step, hpc, Option.some.injEq, reduceCtorEq] at h
    exact h ▸ .restoreFlag hpc

/-! ## Mutual exclusion -/

/-- The flag is set while a core is inside, and only one core is inside. -/
structure Exclusive (s : LockState κ) : Prop where
  flag_of_critical : ∀ i, (s.core i).pc = .critical → s.lock.flag = true
  unique : ∀ i j, (s.core i).pc = .critical → (s.core j).pc = .critical → i = j

@[simp] theorem put_lock (s : LockState κ) (i : κ) (l : SpinLock) (c : Core) :
    (s.put i l c).lock = l := rfl

@[simp] theorem put_core_self (s : LockState κ) (i : κ) (l : SpinLock) (c : Core) :
    (s.put i l c).core i = c := Function.update_self ..

theorem put_core_of_ne (s : LockState κ) (l : SpinLock) (c : Core) (h : j ≠ i) :
    (s.put i l c).core j = s.core j := Function.update_of_ne h ..

/-- A step that keeps the lock flag and does not enter keeps exclusion. -/
theorem Exclusive.put_of_not_critical (h : s.Exclusive) (hl : l.flag = s.lock.flag)
    (hc : c.pc ≠ .critical) : (s.put i l c).Exclusive := by
  -- the cores inside afterwards were inside before
  have hback : ∀ j, ((s.put i l c).core j).pc = .critical → (s.core j).pc = .critical := by
    intro j hj
    by_cases hji : j = i
    · subst hji
      rw [put_core_self] at hj
      exact absurd hj hc
    · rwa [put_core_of_ne s l c hji] at hj
  constructor
  · intro j hj
    rw [put_lock, hl]
    exact h.flag_of_critical j (hback j hj)
  · intro j k hj hk
    exact h.unique j k (hback j hj) (hback k hk)

/-- Winning the compare-exchange keeps exclusion: the flag was clear, so nobody was inside. -/
theorem Exclusive.enter (h : s.Exclusive) (hflag : s.lock.flag = false) (i : κ) (l : SpinLock)
    (c : Core) (hl : l.flag = true) : (s.put i l c).Exclusive := by
  have hnone : ∀ j, (s.core j).pc ≠ .critical := by
    intro j hj
    have := h.flag_of_critical j hj
    rw [hflag] at this
    simp at this
  have hself : ∀ j, ((s.put i l c).core j).pc = .critical → j = i := by
    intro j hj
    by_contra hji
    rw [put_core_of_ne s l c hji] at hj
    exact hnone j hj
  constructor
  · intro _ _
    rw [put_lock, hl]
  · intro j k hj hk
    rw [hself j hj, hself k hk]

/-- Leaving keeps exclusion: the one core inside is the one that leaves. -/
theorem Exclusive.leave (h : s.Exclusive) (hi : (s.core i).pc = .critical) (l : SpinLock) (c : Core)
    (hc : c.pc ≠ .critical) :
    (s.put i l c).Exclusive := by
  have hnone : ∀ j, ((s.put i l c).core j).pc ≠ .critical := by
    intro j hj
    by_cases hji : j = i
    · subst hji
      rw [put_core_self] at hj
      exact hc hj
    · rw [put_core_of_ne s l c hji] at hj
      exact hji (h.unique j i hj hi)
  constructor
  · intro j hj
    exact absurd hj (hnone j)
  · intro j _ hj _
    exact absurd hj (hnone j)

/-- One step keeps exclusion. -/
theorem Exclusive.step {s s' : LockState κ} (h : s.Exclusive) {i : κ} {a : LockStep}
    (hstep : s.step i a = some s') : s'.Exclusive := by
  cases moved_of_step hstep with
  | readFlag _ => exact h.put_of_not_critical rfl (by simp)
  | storeSavedIf _ => exact h.put_of_not_critical rfl (by simp)
  | clearFlag _ => exact h.put_of_not_critical rfl (by simp)
  | spin _ _ => exact h
  | enter _ hflag => exact h.enter hflag i _ _ rfl
  | storeFlag hpc => exact h.leave hpc _ _ (by simp)
  | restoreFlag _ => exact h.put_of_not_critical rfl (by simp)

/-- At most one core is inside, in every state reached by any interleaving. -/
theorem exclusive_of_reachable (h : s.Reachable) : s.Exclusive := by
  apply Reach.invariant _ _ h
  · rintro s ⟨-, hpc⟩
    constructor
    · intro i hi
      rw [hpc i] at hi
      simp at hi
    · intro i _ hi
      rw [hpc i] at hi
      simp at hi
  · intro s a s' hex _ hstep
    exact hex.step hstep

/-! ## The interrupt flag -/

/-- What a core inside the protocol can rely on while stores agree: between its store and its
read-back `saved_if` is its own entry value, and its interrupt flag is the entry value up to `cli`
and clear from there on. -/
def Remembers (s : LockState κ) (i : κ) : Prop :=
  match (s.core i).pc with
  | .outside => True
  | .observed ifSet => ifSet = (s.core i).entryFlag
  | .saved => s.lock.savedIf = (s.core i).entryFlag
  | .spinning | .critical | .released =>
      s.lock.savedIf = (s.core i).entryFlag ∧ (s.core i).intFlag = false

/-- Moving core `i` keeps what all remember when `saved_if` stays and core `i` still relies on the
right values. -/
theorem remembers_put (h : ∀ j, s.Remembers j) (hl : l.savedIf = s.lock.savedIf)
    (hself : (s.put i l c).Remembers i) (j : κ) :
    (s.put i l c).Remembers j := by
  by_cases hji : j = i
  · exact hji ▸ hself
  · have hj := h j
    unfold Remembers at hj ⊢
    rw [put_core_of_ne s l c hji, put_lock, hl]
    exact hj

/-- A store that agrees with the cores in the window keeps what the others remember. -/
theorem remembers_store {b : Bool} (hji : j ≠ i) (hagree : s.InWindow j → (s.core j).entryFlag = b)
    (h : s.Remembers j) :
    (s.put i { s.lock with savedIf := b } c).Remembers j := by
  unfold Remembers at h ⊢
  rw [put_core_of_ne s _ c hji, put_lock]
  cases hpc : (s.core j).pc with
  | outside => trivial
  | observed ifSet =>
    rw [hpc] at h
    exact h
  | saved => exact (hagree (Or.inl hpc)).symm
  | spinning =>
    rw [hpc] at h
    exact ⟨(hagree (Or.inr (Or.inl hpc))).symm, h.2⟩
  | critical =>
    rw [hpc] at h
    exact ⟨(hagree (Or.inr (Or.inr (Or.inl hpc)))).symm, h.2⟩
  | released =>
    rw [hpc] at h
    exact ⟨(hagree (Or.inr (Or.inr (Or.inr hpc)))).symm, h.2⟩

/-- One step whose store agrees keeps what every core remembers. -/
theorem remembers_step (h : ∀ j, s.Remembers j) (hagree : s.StoresAgree (i, a))
    (hstep : s.step i a = some s') : ∀ j, s'.Remembers j := by
  have hi := h i
  unfold Remembers at hi
  -- only the store to `saved_if` concerns the other cores
  cases moved_of_step hstep with
  | readFlag _ => exact remembers_put h rfl (by simp [Remembers])
  | storeSavedIf hpc =>
    rw [hpc] at hi
    simp only at hi
    intro j
    by_cases hji : j = i
    · subst hji
      simp [Remembers, hi]
    · apply remembers_store hji _ (h j)
      intro hw
      rw [hi]
      exact hagree rfl j hw
  | clearFlag hpc =>
    rw [hpc] at hi
    exact remembers_put h rfl (by simpa [Remembers] using hi)
  | spin _ _ => exact h
  | enter hpc _ =>
    rw [hpc] at hi
    exact remembers_put h rfl (by simpa [Remembers] using hi)
  | storeFlag hpc =>
    rw [hpc] at hi
    exact remembers_put h rfl (by simpa [Remembers] using hi)
  | restoreFlag _ => exact remembers_put h rfl (by simp [Remembers])

theorem remembers_of_reachable (h : s.ReachableAgreeing) (i : κ) : s.Remembers i := by
  revert i
  apply Reach.invariant (P := fun s : LockState κ => ∀ i, s.Remembers i) _ _ h
  · rintro s ⟨-, hpc⟩ i
    unfold Remembers
    rw [hpc i]
    trivial
  · intro s a s' hrem hagree hstep
    exact remembers_step hrem hagree hstep

end LockState

open LockState

/-- **The spinlock.** For every interleaving at most one core is between its successful
compare-exchange and its unlock store. When every store to `saved_if` repeats the entry value of the
cores that have stored and not read back, a core that completes `unlock` has the interrupt flag it
had when it called the matching `lock`. -/
theorem spinLock_restores : (∀ s : LockState κ, s.Reachable → ∀ i j, (s.core i).pc = .critical →
      (s.core j).pc = .critical → i = j) ∧
    ∀ s : LockState κ, s.ReachableAgreeing → ∀ i s', s.step i .restoreFlag = some s' →
      (s'.core i).intFlag = (s.core i).entryFlag := by
  constructor
  · intro s hs
    exact (exclusive_of_reachable hs).unique
  · intro s hs i s' hstep
    have hi := remembers_of_reachable hs i
    unfold Remembers at hi
    cases moved_of_step hstep with
    | restoreFlag hpc =>
      rw [hpc] at hi
      obtain ⟨hsaved, hclear⟩ := hi
      rw [put_core_self]
      simp only [hclear, hsaved]
      cases (s.core i).entryFlag <;> rfl

/-- Two cores with interrupts enabled. -/
def equalCores : LockState Bool := ⟨SpinLock.new, fun _ => ⟨.outside, true, true⟩⟩

/-- The first core takes the lock, the second one stores `saved_if` and spins. -/
def contention : List (Bool × LockStep) :=
  [(true, .readFlag), (true, .storeSavedIf), (false, .readFlag), (true, .clearFlag),
    (true, .compareExchange), (false, .storeSavedIf), (false, .clearFlag),
    (false, .compareExchange)]

/-- The first core stores the flag, and the second one takes the lock and stores the flag as well,
before the first one has read `saved_if`. -/
def handover : List (Bool × LockStep) :=
  [(true, .storeFlag), (false, .compareExchange), (false, .storeFlag)]

/-- Of two contending cores the first is alone inside, and both get their interrupt flags back. -/
theorem spinLock_restores_contended : ∃ s t t₁ t₂ : LockState Bool,
    equalCores.runAgreeing contention = some s ∧ (s.core false).pc = .spinning ∧
    (∀ i, (s.core i).pc = .critical → i = true) ∧ s.runAgreeing handover = some t ∧
    t.step true .restoreFlag = some t₁ ∧ (t₁.core true).intFlag = true ∧
    t₁.step false .restoreFlag = some t₂ ∧ (t₂.core false).intFlag = true := by
  obtain ⟨s, hs, hin, hspin, t, ht, hfirst, t₁, ht₁, hsecond, t₂, ht₂⟩ :
      ∃ s, equalCores.runAgreeing contention = some s ∧ (s.core true).pc = .critical ∧
        (s.core false).pc = .spinning ∧ ∃ t, s.runAgreeing handover = some t ∧
        (t.core true).entryFlag = true ∧ ∃ t₁, t.step true .restoreFlag = some t₁ ∧
        (t₁.core false).entryFlag = true ∧ ∃ t₂, t₁.step false .restoreFlag = some t₂ := by
    decide
  have hreach : s.ReachableAgreeing := Reach.of_runAllowed (.init ⟨rfl, fun _ => rfl⟩) hs
  have hreach' : t.ReachableAgreeing := Reach.of_runAllowed hreach ht
  have hreach₁ : t₁.ReachableAgreeing :=
    .step (i := (true, .restoreFlag)) hreach' (fun h => nomatch h) ht₁
  have hany : s.Reachable := hreach.mono fun _ _ _ => trivial
  exact ⟨s, t, t₁, t₂, hs, hspin, fun i hi => spinLock_restores.1 s hany i true hi hin, ht, ht₁,
    (spinLock_restores.2 t hreach' true t₁ ht₁).trans hfirst, ht₂,
    (spinLock_restores.2 t₁ hreach₁ false t₂ ht₂).trans hsecond⟩

/-- Two cores, the first with interrupts enabled and the second without. -/
def twoCores : LockState Bool := ⟨SpinLock.new, fun i => ⟨.outside, i, i⟩⟩

/-- The core with interrupts enabled takes the lock, the other one stores `saved_if` while waiting,
and the first one leaves. -/
def overwriteSchedule : List (Bool × LockStep) :=
  [(true, .readFlag), (true, .storeSavedIf), (true, .clearFlag), (true, .compareExchange),
    (false, .readFlag), (false, .storeSavedIf), (true, .storeFlag)]

/-- The first core called `lock` with interrupts enabled and completes `unlock` with interrupts
disabled. -/
theorem flag_lost : ∃ s s' : LockState Bool, s.Reachable ∧
    twoCores.run overwriteSchedule = some s ∧ s.step true .restoreFlag = some s' ∧
      (s.core true).entryFlag = true ∧ (s'.core true).intFlag = false := by
  have hrun : (twoCores.run overwriteSchedule).bind (fun s =>
      (s.step true .restoreFlag).map fun s' =>
        ((s.core true).entryFlag, (s'.core true).intFlag)) = some (true, false) := by
    decide
  obtain ⟨s, hs, hrest⟩ := Option.bind_eq_some_iff.1 hrun
  obtain ⟨s', hs', hval⟩ := Option.map_eq_some_iff.1 hrest
  simp only [Prod.mk.injEq] at hval
  exact ⟨s, s', Reach.of_run (.init ⟨rfl, fun _ => rfl⟩) (fun _ _ _ => trivial) hs, hs, hs', hval.1,
    hval.2⟩

end PlanckOS.Sync
