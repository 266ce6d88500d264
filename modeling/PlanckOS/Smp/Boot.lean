import PlanckOS.Lib.Transition
import Mathlib.Logic.Function.Basic

/-!
# Starting the secondary cores (`src/hal/smp.rs`)

`smp::init` starts the cores one after the other. `boot_ap` allocates a stack, writes the context of
the core into the trampoline page, wakes the core and waits until the core has reported that it is
running, or until a deadline. There is one page for all cores. A core that was woken reads it at
some later moment and enters `ap_main64` with what it read; `ap_main64` reports the index it was
given.

`own_context`: no core gets the context of another one and no two cores share a stack, when the
deadline never passes before the core has read the page. The invariant says that a core that was
woken and has not read the page is the one that `boot_ap` waits for, so the page is still its own. A
core that is slower than the deadline finds the context of the next core (`context_stolen`).
-/

set_option autoImplicit false

namespace PlanckOS.Smp

open Lib.Transition

variable {i j : Nat}

/-! ## Model -/

def STACK_SIZE : Nat := 0x8000

/-- `size_of::<PerCpu>()`. -/
def PER_CPU_SIZE : Nat := 4304

/-- The values `boot_ap` patches into the trampoline for one core. -/
structure Page where
  cpu : Nat
  stackTop : Nat
  gdt : Nat
  idt : Nat
  deriving DecidableEq, Repr

/-- The context of core `i` with its stack at `stk`; `area` is the address of `CPU_AREA`. In
`PerCpu` the IDT of 256 entries comes first and the GDT behind it. -/
def pageOf (area i stk : Nat) : Page where
  cpu := i
  stackTop := stk + STACK_SIZE
  gdt := area + i * PER_CPU_SIZE + 4096
  idt := area + i * PER_CPU_SIZE

/-- A secondary core: not woken, woken, with the page in its registers, in `ap_main64`. -/
inductive ApState where
  | off
  | started
  | loaded (page : Page)
  | running (page : Page)
  deriving DecidableEq, Repr

/-- Where `init` stands with core `i`. -/
inductive BspPc where
  | next (i : Nat)
  /-- The page is written, the core is not woken yet. -/
  | patched (i : Nat)
  | waiting (i : Nat)
  deriving DecidableEq, Repr

/-- The page, `state == STATE_RUNNING` and the stack of every core, and the cores. -/
structure Boot where
  bsp : BspPc
  page : Page
  online : Nat → Bool
  stack : Nat → Option Nat
  core : Nat → ApState

/-- The steps of `boot_ap` and of the cores. -/
inductive BootStep where
  /-- Allocate the stack, with the result of the allocator, and write the page. -/
  | patch (stk : Option Nat)
  /-- INIT and the SIPIs. -/
  | wake
  | seenOnline
  | timeout
  | load (j : Nat)
  | enter (j : Nat)
  deriving DecidableEq, Repr

/-- Two stacks do not overlap. -/
def Apart (stk stk' : Nat) : Prop := stk + STACK_SIZE ≤ stk' ∨ stk' + STACK_SIZE ≤ stk
  deriving Decidable

namespace Boot

variable (area count : Nat)

/-- Before the first `boot_ap`: the boot core is running, the others are off. -/
def start (page : Page) : Boot := ⟨.next 1, page, fun j => j == 0, fun _ => none, fun _ => .off⟩

/-- The allocator returns memory that no other core has. -/
def Fresh (s : Boot) (stk : Nat) : Prop := ∀ k < count, ∀ t ∈ s.stack k, Apart t stk

instance (s : Boot) (stk : Nat) : Decidable (s.Fresh count stk) :=
  inferInstanceAs (Decidable (∀ k < count, ∀ t ∈ s.stack k, Apart t stk))

/-- One step; `none` when it is not enabled. -/
def step (s : Boot) : BootStep → Option Boot
  | .patch stk =>
      match s.bsp with
      | .next i =>
          if i < count then
            match stk with
            | none => some { s with bsp := .next (i + 1) }
            | some stk =>
                if s.Fresh count stk then
                  some { s with
                    bsp := .patched i
                    page := pageOf area i stk
                    stack := Function.update s.stack i (some stk) }
                else none
          else none
      | _ => none
  | .wake =>
      match s.bsp with
      | .patched i =>
          some { s with bsp := .waiting i, core := Function.update s.core i .started }
      | _ => none
  | .seenOnline =>
      match s.bsp with
      | .waiting i => if s.online i then some { s with bsp := .next (i + 1) } else none
      | _ => none
  | .timeout =>
      match s.bsp with
      | .waiting i => some { s with bsp := .next (i + 1) }
      | _ => none
  | .load j =>
      match s.core j with
      | .started => some { s with core := Function.update s.core j (.loaded s.page) }
      | _ => none
  | .enter j =>
      match s.core j with
      | .loaded page =>
          some { s with
            core := Function.update s.core j (.running page)
            online := Function.update s.online page.cpu true }
      | _ => none

/-- The core that `boot_ap` waits for has not read the page. -/
def Unread (s : Boot) : Bool :=
  match s.bsp with
  | .waiting i => s.core i = .started
  | _ => false

/-- The deadline does not pass before the core has read the page. -/
def InTime (s : Boot) (a : BootStep) : Prop := a = .timeout → s.Unread = false
  deriving Decidable

/-- States reached by steps that satisfy `InTime`. -/
abbrev Reachable : Boot → Prop :=
  Reach (fun s => ∃ page, s = start page) InTime fun s a s' => s.step area count a = some s'

/-! ## Invariant -/

/-- The core that `init` is at. -/
def index : BspPc → Nat
  | .next i => i
  | .patched i => i
  | .waiting i => i

/-- Cores that `init` has not come to. -/
def Untouched : BspPc → Nat → Prop
  | .next i, j => i ≤ j
  | .patched i, j => i ≤ j
  | .waiting i, j => i < j

/-- `boot_ap` is between writing the page and going on to the next core. -/
def Booting : BspPc → Nat → Prop
  | .next _, _ => False
  | .patched i, j => i = j
  | .waiting i, j => i = j

structure Inv (s : Boot) : Prop where
  positive : index s.bsp ≠ 0
  untouched : ∀ j, Untouched s.bsp j → s.core j = .off
  page : ∀ i, Booting s.bsp i → ∃ stk, s.stack i = some stk ∧ s.page = pageOf area i stk
  started : ∀ j, s.core j = .started → s.bsp = .waiting j
  own : ∀ j page, s.core j = .loaded page ∨ s.core j = .running page →
    ∃ stk, s.stack j = some stk ∧ page = pageOf area j stk
  online : ∀ j, j ≠ 0 → s.online j = true → ∃ page, s.core j = .running page
  bound : ∀ j stk, s.stack j = some stk → j < count
  apart : ∀ j k stk stk', s.stack j = some stk → s.stack k = some stk' → j ≠ k → Apart stk stk'

variable {area count} {s s' : Boot}

theorem inv_start (page : Page) : Inv area count (start page) where
  positive := Nat.one_ne_zero
  untouched _ _ := rfl
  page _ h := h.elim
  started _ h := nomatch h
  own _ _ h := by rcases h with h | h <;> cases h
  online j hj h := absurd (beq_iff_eq.mp h) hj
  bound _ _ h := nomatch h
  apart _ _ _ _ h := nomatch h

section

variable (h : Inv area count s)
include h

/-- A new stack and its page. -/
theorem Inv.patch {stk : Nat} (hbsp : s.bsp = .next i) (hi : i < count)
    (hfresh : s.Fresh count stk) : Inv area count { s with
      bsp := .patched i
      page := pageOf area i stk
      stack := Function.update s.stack i (some stk) } := by
  have hoff : ∀ j, i ≤ j → s.core j = .off := fun j hj => h.untouched j (by rw [hbsp]; exact hj)
  -- the stacks of the other cores are not touched
  have hstack : ∀ j, s.core j ≠ .off → Function.update s.stack i (some stk) j = s.stack j := by
    intro j hj
    exact Function.update_of_ne (fun hji => hj (hoff j hji.ge)) _ _
  constructor
  · exact fun h0 => h.positive (by rw [hbsp]; exact h0)
  · exact hoff
  · rintro j rfl
    exact ⟨stk, Function.update_self .., rfl⟩
  · intro j hj
    exact nomatch hbsp.symm.trans (h.started j hj)
  · intro j page hj
    have hne : s.core j ≠ .off := by
      rcases hj with hj | hj <;> exact fun heq => nomatch heq.symm.trans hj
    obtain ⟨t, ht, hpage⟩ := h.own j page hj
    exact ⟨t, (hstack j hne).trans ht, hpage⟩
  · exact h.online
  · intro j t hj
    by_cases hji : j = i
    · exact hji ▸ hi
    · exact h.bound j t ((Function.update_of_ne hji ..).symm.trans hj)
  · intro j k t t' hj hk hne
    dsimp only at hj hk
    by_cases hji : j = i
    · subst hji
      rw [Function.update_self] at hj
      rw [Function.update_of_ne (Ne.symm hne)] at hk
      obtain rfl := Option.some.inj hj
      exact (hfresh k (h.bound k t' hk) t' hk).symm
    · rw [Function.update_of_ne hji] at hj
      by_cases hki : k = i
      · subst hki
        rw [Function.update_self] at hk
        obtain rfl := Option.some.inj hk
        exact hfresh j (h.bound j t hj) t hj
      · rw [Function.update_of_ne hki] at hk
        exact h.apart j k t t' hj hk hne

/-- `init` goes on to the next core, when no core is left that was woken and has not read. -/
theorem Inv.advance (hbsp : ∀ j, i ≤ j → Untouched s.bsp j)
    (hidle : ∀ j, s.core j ≠ .started) (hi : i ≠ 0) : Inv area count { s with bsp := .next i } where
  positive := hi
  untouched j hj := h.untouched j (hbsp j hj)
  page _ hb := hb.elim
  started j hj := absurd hj (hidle j)
  own := h.own
  online := h.online
  bound := h.bound
  apart := h.apart

/-- A step of one core that leaves the others and the boot core alone. -/
theorem Inv.coreStep {c : ApState} {online : Nat → Bool}
    (hoff : s.core j ≠ .off) (hstarted : c = .started → s.bsp = .waiting j)
    (hown : ∀ page, c = .loaded page ∨ c = .running page →
      ∃ stk, s.stack j = some stk ∧ page = pageOf area j stk)
    (honline : ∀ k, k ≠ 0 → online k = true →
      ∃ page, Function.update s.core j c k = .running page) :
    Inv area count { s with core := Function.update s.core j c, online := online } := by
  constructor
  · exact h.positive
  · intro k hk
    have hkj : k ≠ j := fun hkj => hoff (hkj ▸ h.untouched k hk)
    exact (Function.update_of_ne hkj ..).trans (h.untouched k hk)
  · exact h.page
  · intro k hk
    by_cases hkj : k = j
    · subst hkj
      exact hstarted ((Function.update_self ..).symm.trans hk)
    · exact h.started k ((Function.update_of_ne hkj ..).symm.trans hk)
  · intro k page hk
    dsimp only at hk
    by_cases hkj : k = j
    · subst hkj
      rw [Function.update_self] at hk
      exact hown page hk
    · rw [Function.update_of_ne hkj] at hk
      exact h.own k page hk
  · exact honline
  · exact h.bound
  · exact h.apart

/-- The cores that reported are not affected when another one moves. -/
theorem Inv.online_update {c : ApState} (hj : ∀ page, s.core j ≠ .running page) :
    ∀ k, k ≠ 0 → s.online k = true → ∃ page, Function.update s.core j c k = .running page := by
  intro k hk hon
  obtain ⟨page, hpage⟩ := h.online k hk hon
  have hkj : k ≠ j := fun hkj => hj page (hkj ▸ hpage)
  exact ⟨page, (Function.update_of_ne hkj ..).trans hpage⟩

/-- The core is woken: from now on `boot_ap` waits for it. -/
theorem Inv.wake (hbsp : s.bsp = .patched i) : Inv area count
      { s with bsp := .waiting i, core := Function.update s.core i .started } := by
  have hoff : s.core i = .off := h.untouched i (by rw [hbsp]; exact le_rfl)
  constructor
  · exact fun h0 => h.positive (by rw [hbsp]; exact h0)
  · intro j hj
    have huntouched : Untouched s.bsp j := by
      rw [hbsp]
      exact Nat.le_of_lt hj
    exact (Function.update_of_ne (Nat.ne_of_gt hj) ..).trans (h.untouched j huntouched)
  · rintro j rfl
    exact h.page i (by rw [hbsp]; rfl)
  · intro j hj
    by_cases hji : j = i
    · rw [hji]
    · have hold := (Function.update_of_ne hji ..).symm.trans hj
      exact nomatch hbsp.symm.trans (h.started j hold)
  · intro j page hj
    dsimp only at hj
    by_cases hji : j = i
    · subst hji
      rw [Function.update_self] at hj
      rcases hj with hj | hj <;> cases hj
    · rw [Function.update_of_ne hji] at hj
      exact h.own j page hj
  · exact h.online_update fun page hpage => nomatch hoff.symm.trans hpage
  · exact h.bound
  · exact h.apart

/-- The core reads the page. It was woken and has not read before, so the page is its own. -/
theorem Inv.load (hj : s.core j = .started) :
    Inv area count { s with core := Function.update s.core j (.loaded s.page) } := by
  refine h.coreStep ?_ (fun heq => nomatch heq) ?_ ?_
  · exact fun hoff => nomatch hoff.symm.trans hj
  · intro page hpage
    obtain rfl : s.page = page := by
      rcases hpage with hpage | hpage
      · injection hpage
      · cases hpage
    exact h.page j (by rw [h.started j hj]; rfl)
  · exact h.online_update fun page hpage => nomatch hj.symm.trans hpage

/-- The core enters `ap_main64` and reports the index it was given, which is its own. -/
theorem Inv.enter {page : Page} (hj : s.core j = .loaded page) : Inv area count { s with
      core := Function.update s.core j (.running page)
      online := Function.update s.online page.cpu true } := by
  have hown := h.own j page (.inl hj)
  have hcpu : page.cpu = j := by
    obtain ⟨stk, -, rfl⟩ := hown
    rfl
  refine h.coreStep ?_ (fun heq => nomatch heq) ?_ ?_
  · exact fun hoff => nomatch hoff.symm.trans hj
  · intro page' hpage
    obtain rfl : page = page' := by
      rcases hpage with hpage | hpage
      · cases hpage
      · injection hpage
    exact hown
  · intro k hk hon
    rw [hcpu] at hon
    by_cases hkj : k = j
    · exact ⟨page, hkj ▸ Function.update_self ..⟩
    · rw [Function.update_of_ne hkj] at hon
      exact h.online_update (fun p hp => nomatch hj.symm.trans hp) k hk hon

end

/-! ## Runs -/

/-- What the steps do, one constructor for each. -/
inductive Moves (area count : Nat) (s : Boot) : BootStep → Boot → Prop
  | noStack {i : Nat} (hbsp : s.bsp = .next i) :
      Moves area count s (.patch none) { s with bsp := .next (i + 1) }
  | patch {i stk : Nat} (hbsp : s.bsp = .next i) (hi : i < count) (hfresh : s.Fresh count stk) :
      Moves area count s (.patch (some stk)) { s with
        bsp := .patched i
        page := pageOf area i stk
        stack := Function.update s.stack i (some stk) }
  | wake {i : Nat} (hbsp : s.bsp = .patched i) :
      Moves area count s .wake
        { s with bsp := .waiting i, core := Function.update s.core i .started }
  | seenOnline {i : Nat} (hbsp : s.bsp = .waiting i) (hon : s.online i = true) :
      Moves area count s .seenOnline { s with bsp := .next (i + 1) }
  | timeout {i : Nat} (hbsp : s.bsp = .waiting i) :
      Moves area count s .timeout { s with bsp := .next (i + 1) }
  | load {j : Nat} (hj : s.core j = .started) :
      Moves area count s (.load j) { s with core := Function.update s.core j (.loaded s.page) }
  | enter {j : Nat} {page : Page} (hj : s.core j = .loaded page) :
      Moves area count s (.enter j) { s with
        core := Function.update s.core j (.running page)
        online := Function.update s.online page.cpu true }

theorem moves_of_step {a : BootStep} (h : s.step area count a = some s') :
    Moves area count s a s' := by
  cases a with
  | patch stk =>
    cases hbsp : s.bsp <;> simp only [step, hbsp, reduceCtorEq] at h
    split at h
    · rename_i hi
      cases stk with
      | none => exact Option.some.inj h ▸ .noStack hbsp
      | some stk =>
        simp only [Option.ite_none_right_eq_some, Option.some.injEq] at h
        exact h.2 ▸ .patch hbsp hi h.1
    · cases h
  | wake =>
    cases hbsp : s.bsp <;> simp only [step, hbsp, reduceCtorEq] at h
    exact Option.some.inj h ▸ .wake hbsp
  | seenOnline =>
    cases hbsp : s.bsp <;> simp only [step, hbsp, reduceCtorEq] at h
    simp only [Option.ite_none_right_eq_some, Option.some.injEq] at h
    exact h.2 ▸ .seenOnline hbsp h.1
  | timeout =>
    cases hbsp : s.bsp <;> simp only [step, hbsp, reduceCtorEq] at h
    exact Option.some.inj h ▸ .timeout hbsp
  | load j =>
    cases hj : s.core j <;> simp only [step, hj, reduceCtorEq] at h
    exact Option.some.inj h ▸ .load hj
  | enter j =>
    cases hj : s.core j <;> simp only [step, hj, reduceCtorEq] at h
    exact Option.some.inj h ▸ .enter hj

/-- `init` leaves a core that is not between waking and reading. -/
theorem Inv.leave (h : Inv area count s) (hbsp : s.bsp = .waiting i)
    (hread : s.core i ≠ .started) : Inv area count { s with bsp := .next (i + 1) } := by
  refine h.advance ?_ ?_ (Nat.succ_ne_zero i)
  · intro j hj
    rw [hbsp]
    exact hj
  · intro j hj
    -- a woken core is the one `boot_ap` waits for
    have heq := hbsp.symm.trans (h.started j hj)
    injection heq with hij
    exact hread (hij ▸ hj)

/-- **Every step keeps the invariant.** -/
theorem Inv.step (h : Inv area count s) {a : BootStep} (hok : s.InTime a)
    (hs : s.step area count a = some s') : Inv area count s' := by
  cases moves_of_step hs with
  | @noStack i hbsp =>
    refine h.advance ?_ ?_ (Nat.succ_ne_zero i)
    · intro j hj
      rw [hbsp]
      exact (Nat.le_succ i).trans hj
    · intro j hj
      exact nomatch hbsp.symm.trans (h.started j hj)
  | patch hbsp hi hfresh => exact h.patch hbsp hi hfresh
  | wake hbsp => exact h.wake hbsp
  | @seenOnline i hbsp hon =>
    have hi : i ≠ 0 := by
      rintro rfl
      exact h.positive (by rw [hbsp]; rfl)
    obtain ⟨page, hpage⟩ := h.online i hi hon
    exact h.leave hbsp fun hst => nomatch hst.symm.trans hpage
  | @timeout i hbsp =>
    have hunread := hok rfl
    rw [Unread, hbsp] at hunread
    exact h.leave hbsp (of_decide_eq_false hunread)
  | load hj => exact h.load hj
  | enter hj => exact h.enter hj

theorem inv_of_reachable (h : s.Reachable area count) : Inv area count s := by
  refine Reach.invariant ?_ ?_ h
  · rintro s ⟨page, rfl⟩
    exact inv_start page
  · intro s a s' hs hok hstep
    exact hs.step hok hstep

end Boot

/-- **Every core gets its own context.** For any number of cores and any delays, as long as no
deadline passes before the core has read the page: a core that read the page has its own index,
stack and tables, and the stacks of two cores do not overlap. -/
theorem own_context (area count : Nat) (s : Boot) (h : s.Reachable area count) :
    (∀ j page, s.core j = .loaded page ∨ s.core j = .running page →
      ∃ stk, s.stack j = some stk ∧ page = pageOf area j stk) ∧
    ∀ j k page page', s.core j = .running page → s.core k = .running page' → j ≠ k →
      page.stackTop + STACK_SIZE ≤ page'.stackTop ∨
        page'.stackTop + STACK_SIZE ≤ page.stackTop := by
  have hinv := Boot.inv_of_reachable h
  refine ⟨hinv.own, ?_⟩
  intro j k page page' hj hk hne
  obtain ⟨stk, hstk, rfl⟩ := hinv.own j page (.inr hj)
  obtain ⟨stk', hstk', rfl⟩ := hinv.own k page' (.inr hk)
  have hapart := hinv.apart j k stk stk' hstk hstk' hne
  rw [Apart] at hapart
  simp only [pageOf]
  omega

/-- The page before the first core is started. -/
def blankPage : Page := ⟨0, 0, 0, 0⟩

/-- The stack top and the index that core `j` runs with. -/
def Boot.runsWith (s : Boot) (j : Nat) : Option (Nat × Nat) :=
  match s.core j with
  | .running page => some (page.cpu, page.stackTop)
  | _ => none

/-- Two cores are started; the deadline of the first one passes after it has read the page. -/
theorem own_context_sample : ∃ s : Boot, s.Reachable 0 3 ∧ s.runsWith 1 = some (1, 0x18000) ∧
    s.runsWith 2 = some (2, 0x28000) ∧
    ∀ j page, s.core j = .loaded page ∨ s.core j = .running page →
      ∃ stk, s.stack j = some stk ∧ page = pageOf 0 j stk := by
  obtain ⟨s, hs, hcores⟩ : ∃ s, runAllowed Boot.InTime (Boot.step 0 3) (Boot.start blankPage)
      [.patch (some 0x10000), .wake, .load 1, .timeout, .patch (some 0x20000), .wake, .enter 1,
        .load 2, .enter 2] = some s ∧ s.runsWith 1 = some (1, 0x18000) ∧
      s.runsWith 2 = some (2, 0x28000) := by decide
  have h : s.Reachable 0 3 := Reach.of_runAllowed (.init ⟨blankPage, rfl⟩) hs
  exact ⟨s, h, hcores.1, hcores.2, (own_context 0 3 s h).1⟩

/-- The deadline of core 1 passes before it has read the page. It finds the context of core 2, and
both run with the index and on the stack of core 2. -/
theorem context_stolen : ((runSteps (Boot.step 0 3) (Boot.start blankPage)
      [.patch (some 0x10000), .wake, .timeout, .patch (some 0x20000), .wake, .load 1, .enter 1,
        .load 2, .enter 2]).map fun s => (s.runsWith 1, s.runsWith 2)) =
      some (some (2, 0x28000), some (2, 0x28000)) := by
  decide

end PlanckOS.Smp
