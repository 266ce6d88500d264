import PlanckOS.Lib.Transition

/-!
# Inter-processor interrupts (`src/hal/smp.rs`)

A secondary core sits in the idle loop of `ap_main64`: `take_ipi_flag` reads `ipi_flag` and then
writes `false`, and the core logs or halts depending on what it read. `handle_ipi` runs to
completion on the same core between any two of these steps; it counts the interrupt and sets the
flag.

The state remembers whether a notification is outstanding (`owed`): from `handle_ipi` on until a
call of `take_ipi_flag` that read `true` writes the flag. `notification_kept`: the flag is set as
long as a notification is outstanding, in every run in which no interrupt comes between a read of
`false` and the write behind it. An interrupt in that window is lost (`notification_lost`).
-/

set_option autoImplicit false

namespace PlanckOS.Smp

open Lib.Transition

/-! ## Model -/

/-- Where the idle loop stands. -/
inductive IdlePc where
  /-- Before the read of `take_ipi_flag`. -/
  | read
  /-- The flag was read, `false` is not written yet. -/
  | write (v : Bool)
  /-- `take_ipi_flag` returned. -/
  | decide (v : Bool)
  | halted
  deriving DecidableEq, Repr

/-- The per-core fields of the protocol, the loop, and whether a notification is outstanding. -/
structure ApCore where
  ipiFlag : Bool
  ipiCount : Nat
  pc : IdlePc
  owed : Bool
  deriving DecidableEq, Repr

/-- A step of the loop, an IPI, or another interrupt that ends `hlt`. -/
inductive IpiStep where
  | loop
  | ipi
  | wake
  deriving DecidableEq, Repr

namespace ApCore

/-- The core as it enters the idle loop. -/
def start : ApCore := ⟨false, 0, .read, false⟩

/-- An interrupt ends `hlt`, and the loop starts again. -/
def resume : IdlePc → IdlePc
  | .halted => .read
  | pc => pc

def handleIpi (s : ApCore) : ApCore where
  ipiFlag := true
  ipiCount := (s.ipiCount + 1) % 2 ^ 64
  pc := resume s.pc
  owed := true

/-- One step of the idle loop; a halted core has none. -/
def loopStep (s : ApCore) : Option ApCore :=
  match s.pc with
  | .read => some { s with pc := .write s.ipiFlag }
  | .write v => some { s with ipiFlag := false, pc := .decide v, owed := s.owed && !v }
  | .decide true => some { s with pc := .read }
  | .decide false => some { s with pc := .halted }
  | .halted => none

def step (s : ApCore) : IpiStep → Option ApCore
  | .loop => s.loopStep
  | .ipi => some s.handleIpi
  | .wake => some { s with pc := resume s.pc }

/-- No IPI comes between a read of `false` and the write behind it. -/
def OutsideWindow (s : ApCore) (a : IpiStep) : Prop := a = .ipi → s.pc ≠ .write false
  deriving Decidable

/-- States reached by steps that satisfy `OutsideWindow`. -/
abbrev Reachable : ApCore → Prop :=
  Reach (fun s => s = start) OutsideWindow fun s a s' => s.step a = some s'

/-! ## Invariant -/

/-- An outstanding notification has the flag set; a pending write of a `false` that was read finds
the flag clear. -/
structure Inv (s : ApCore) : Prop where
  flag : s.owed = true → s.ipiFlag = true
  clear : s.pc = .write false → s.ipiFlag = false

theorem resume_ne_write {pc : IdlePc} {v : Bool} (h : pc ≠ .write v) : resume pc ≠ .write v := by
  cases pc with
  | halted => exact fun heq => nomatch heq
  | read => exact h
  | write _ => exact h
  | decide _ => exact h

theorem Inv.handleIpi {s : ApCore} (hpc : s.pc ≠ .write false) : Inv s.handleIpi where
  flag _ := rfl
  clear h := absurd h (resume_ne_write hpc)

theorem Inv.wake {s : ApCore} (h : Inv s) : Inv { s with pc := resume s.pc } where
  flag := h.flag
  clear hpc := by
    by_contra hset
    exact resume_ne_write (fun hw => hset (h.clear hw)) hpc

theorem Inv.loopStep {s s' : ApCore} (h : Inv s) (hs : s.loopStep = some s') : Inv s' := by
  rw [ApCore.loopStep] at hs
  cases hpc : s.pc with
  | read =>
    simp only [hpc, Option.some.injEq] at hs
    subst hs
    refine ⟨h.flag, ?_⟩
    intro hw
    injection hw
  | write v =>
    simp only [hpc, Option.some.injEq] at hs
    subst hs
    refine ⟨?_, fun hw => nomatch hw⟩
    -- with `v = false` the flag is clear, so nothing is outstanding
    intro hstill
    obtain ⟨howed, hv⟩ := Bool.and_eq_true_iff.mp hstill
    obtain rfl : v = false := Bool.not_eq_true' v |>.mp hv
    exact absurd (h.flag howed) (by rw [h.clear hpc]; decide)
  | decide v =>
    cases v with
    | true =>
      simp only [hpc, Option.some.injEq] at hs
      subst hs
      exact ⟨h.flag, fun hw => nomatch hw⟩
    | false =>
      simp only [hpc, Option.some.injEq] at hs
      subst hs
      exact ⟨h.flag, fun hw => nomatch hw⟩
  | halted =>
    simp only [hpc] at hs
    cases hs

theorem inv_of_reachable {s : ApCore} (h : s.Reachable) : Inv s := by
  refine Reach.invariant ?_ ?_ h
  · rintro s rfl
    constructor
    · exact fun h => nomatch h
    · exact fun h => nomatch h
  · rintro s a s' hs hok hstep
    cases a with
    | loop => exact hs.loopStep hstep
    | ipi =>
      obtain rfl := Option.some.inj hstep
      exact .handleIpi (hok rfl)
    | wake =>
      obtain rfl := Option.some.inj hstep
      exact hs.wake

end ApCore

/-- **No notification is lost**, when no IPI comes between a read of `false` and its write: from
`handle_ipi` on, the flag is set until a `take_ipi_flag` that returns `true` clears it. -/
theorem notification_kept (s : ApCore) (h : s.Reachable) : s.owed = true → s.ipiFlag = true :=
  (ApCore.inv_of_reachable h).flag

/-- An IPI to a halted core, and another one while the first is taken. -/
theorem notification_kept_twice :
    ∃ s : ApCore, s.Reachable ∧ s.owed = true ∧ s.ipiCount = 2 ∧ s.ipiFlag = true := by
  have hrun : runAllowed ApCore.OutsideWindow ApCore.step ApCore.start
      [.loop, .loop, .loop, .ipi, .loop, .ipi] = some ⟨true, 2, .write true, true⟩ := by decide
  have h : ApCore.Reachable ⟨true, 2, .write true, true⟩ :=
    Reach.of_runAllowed (.init rfl) hrun
  exact ⟨_, h, rfl, rfl, notification_kept _ h rfl⟩

/-- The core reads `false`, the IPI sets the flag, and the write of `take_ipi_flag` clears it: the
call returns `false` and the core halts. -/
theorem notification_lost : runSteps ApCore.step ApCore.start [.loop, .ipi, .loop, .loop] =
      some ⟨false, 1, .halted, true⟩ := by
  decide

end PlanckOS.Smp
