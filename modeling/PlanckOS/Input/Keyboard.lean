import PlanckOS.Input.KeyRing

/-!
# The scan code decoder of `src/hal/input.rs`

`irq1_handler` takes one byte per interrupt. Two prefix bytes set flags for the byte behind them,
and one bit in `SHIFT` stands for both shift keys. The events of the keys reach the handler as byte
sequences (`KeyEvent.bytes`); beside the handler we follow which keys are down (`Held`).

`shift_follows_keys`: as long as no shift key is still down when the break code of a shift key
arrives, plain or extended, every printable key is taken from the right column of the table. Both
restrictions are needed. Releasing one of two shift keys clears the bit for both, and the release
branch looks at the code without the prefix, so the fake shift release `E0 F0 12` that extended keys
send clears it as well (`shift_forgotten`).
-/

set_option autoImplicit false

namespace PlanckOS.Input

open Lib Lib.Transition List

/-! ## The handler -/

def SHIFT_MASK : UInt64 := 1
def CTRL_MASK : UInt64 := 2

/-- The filled rows of `SCANCODE_SET2`: make code, byte without shift, byte with shift. -/
def SCANCODE_SET2 : List (UInt8 × UInt8 × UInt8) :=
  [(0x0D, 0x09, 0x09), (0x0E, 0x60, 0x7E), (0x15, 0x71, 0x51), (0x16, 0x31, 0x21),
    (0x1A, 0x7A, 0x5A), (0x1B, 0x73, 0x53), (0x1C, 0x61, 0x41), (0x1D, 0x77, 0x57),
    (0x1E, 0x32, 0x40), (0x21, 0x63, 0x43), (0x22, 0x78, 0x58), (0x23, 0x64, 0x44),
    (0x24, 0x65, 0x45), (0x25, 0x34, 0x24), (0x26, 0x33, 0x23), (0x29, 0x20, 0x20),
    (0x2A, 0x76, 0x56), (0x2B, 0x66, 0x46), (0x2C, 0x74, 0x54), (0x2D, 0x72, 0x52),
    (0x2E, 0x35, 0x25), (0x31, 0x6E, 0x4E), (0x32, 0x62, 0x42), (0x33, 0x68, 0x48),
    (0x34, 0x67, 0x47), (0x35, 0x79, 0x59), (0x36, 0x36, 0x5E), (0x3A, 0x6D, 0x4D),
    (0x3B, 0x6A, 0x4A), (0x3C, 0x75, 0x55), (0x3D, 0x37, 0x26), (0x3E, 0x38, 0x2A),
    (0x41, 0x2C, 0x3C), (0x42, 0x6B, 0x4B), (0x43, 0x69, 0x49), (0x44, 0x6F, 0x4F),
    (0x45, 0x30, 0x29), (0x46, 0x39, 0x28), (0x49, 0x2E, 0x3E), (0x4A, 0x2F, 0x3F),
    (0x4B, 0x6C, 0x4C), (0x4C, 0x3B, 0x3A), (0x4D, 0x70, 0x50), (0x4E, 0x2D, 0x5F),
    (0x52, 0x27, 0x22), (0x54, 0x5B, 0x7B), (0x55, 0x3D, 0x2B), (0x5B, 0x5D, 0x7D),
    (0x5A, 0x0A, 0x0A), (0x61, 0x5C, 0x7C), (0x66, 0x08, 0x08), (0x76, 0x1B, 0x1B)]

/-- A row of the table; rows that are not filled are zero. -/
def scancodeRow (scancode : UInt8) : UInt8 × UInt8 := (SCANCODE_SET2.lookup scancode).getD (0, 0)

/-- The statics of the decoder. -/
structure Keys where
  shift : UInt64
  ctrl : UInt64
  extended : Bool
  release : Bool
  deriving DecidableEq, Repr

/-- The column of the table that the shift bit selects. -/
def column (shift : UInt64) (row : UInt8 × UInt8) : UInt8 :=
  if shift &&& SHIFT_MASK ≠ 0 then row.2 else row.1

def scancodeToAscii (keys : Keys) (scancode : UInt8) : Option UInt8 :=
  if 128 ≤ scancode then none
  else
    let c := column keys.shift (scancodeRow scancode)
    if c = 0 then none else some c

/-- The tokens for the arrow keys. -/
def arrowToken (scancode : UInt8) : Option UInt8 :=
  match scancode with
  | 0x75 => some 0x01
  | 0x72 => some 0x02
  | 0x6B => some 0x03
  | 0x74 => some 0x04
  | _ => none

/-- The two shift keys. -/
def IsShift (code : UInt8) : Prop := code = 0x12 ∨ code = 0x59
  deriving Decidable

/-- The effect of a break code on the modifiers. -/
def released (keys : Keys) (make : UInt8) : Keys :=
  if IsShift make then { keys with shift := keys.shift &&& ~~~SHIFT_MASK }
  else if make = 0x14 then { keys with ctrl := keys.ctrl &&& ~~~CTRL_MASK }
  else keys

/-- `irq1_handler` up to the call of `push_char`: the statics after it and the byte to push. -/
def decode (keys : Keys) (scancode : UInt8) : Keys × Option UInt8 :=
  if scancode = 0xE0 then ({ keys with extended := true }, none)
  else if scancode = 0xF0 then ({ keys with release := true }, none)
  else if keys.release then
    ({ released keys scancode with release := false, extended := false }, none)
  else if keys.extended then ({ keys with extended := false }, arrowToken scancode)
  else if IsShift scancode then
    ({ keys with shift := keys.shift ||| SHIFT_MASK, extended := false }, none)
  else if scancode = 0x14 then
    ({ keys with ctrl := keys.ctrl ||| CTRL_MASK, extended := false }, none)
  else ({ keys with extended := false }, scancodeToAscii keys scancode)

/-- The statics of the decoder and the ring. -/
structure Keyboard where
  keys : Keys
  ring : RingBuf

/-- The keyboard before the first interrupt. -/
def Keyboard.new : Keyboard := ⟨⟨0, 0, false, false⟩, RingBuf.new⟩

/-- One interrupt. -/
def irq1Handler (kb : Keyboard) (scancode : UInt8) : Keyboard where
  keys := (decode kb.keys scancode).1
  ring := match (decode kb.keys scancode).2 with
    | some c => pushChar kb.ring c
    | none => kb.ring

/-! ## Keys -/

/-- A code that a key sends: none of the two prefix bytes. -/
structure KeyCode where
  code : UInt8
  notPrefix : code ≠ 0xE0 ∧ code ≠ 0xF0
  deriving DecidableEq

/-- What a key sends when it goes down or repeats, and when it goes up. -/
inductive KeyEvent where
  | down (key : KeyCode)
  | up (key : KeyCode)
  | extendedDown (key : KeyCode)
  | extendedUp (key : KeyCode)
  deriving DecidableEq

/-- The bytes of an event. -/
def KeyEvent.bytes : KeyEvent → List UInt8
  | .down key => [key.code]
  | .up key => [0xF0, key.code]
  | .extendedDown key => [0xE0, key.code]
  | .extendedUp key => [0xE0, 0xF0, key.code]

/-- The keys that are down, those with a plain code and those with an extended one. -/
structure Held where
  plain : UInt8 → Bool
  extended : UInt8 → Bool

namespace Held

/-- No key is down. -/
def none : Held := ⟨fun _ => false, fun _ => false⟩

/-- The keys that are down after an event. -/
def after (held : Held) : KeyEvent → Held
  | .down key => { held with plain := Function.update held.plain key.code true }
  | .up key => { held with plain := Function.update held.plain key.code false }
  | .extendedDown key => { held with extended := Function.update held.extended key.code true }
  | .extendedUp key => { held with extended := Function.update held.extended key.code false }

/-- At least one shift key is down. -/
def shift (held : Held) : Bool := held.plain 0x12 || held.plain 0x59

/-- A key goes up only when it is down. The codes `E0 12` and `E0 F0 12` belong to no key: extended
keys send them around their own codes. -/
def Possible (held : Held) : KeyEvent → Prop
  | .down _ => True
  | .up key => held.plain key.code = true
  | .extendedDown _ => True
  | .extendedUp key => held.extended key.code = true ∨ key.code = 0x12

/-- The break code of a shift key, plain or extended, comes when no shift key stays down. -/
def EndsShift (held : Held) (event : KeyEvent) : Prop :=
  match event with
  | .up key => IsShift key.code → (held.after event).shift = false
  | .extendedUp key => IsShift key.code → (held.after event).shift = false
  | .down _ => True
  | .extendedDown _ => True

end Held

/-- The keyboard driver and the keys. -/
structure Typing where
  kb : Keyboard
  held : Held

namespace Typing

/-- Nothing was typed yet. -/
def start : Typing := ⟨Keyboard.new, Held.none⟩

/-- The bytes of an event reach the handler one by one. -/
def after (t : Typing) (event : KeyEvent) : Typing :=
  ⟨event.bytes.foldl irq1Handler t.kb, t.held.after event⟩

/-- States reached by possible events that satisfy `EndsShift`. -/
abbrev Reachable : Typing → Prop :=
  Reach (fun t => t = start) (fun t event => t.held.Possible event ∧ t.held.EndsShift event)
    fun t event t' => t.after event = t'

end Typing

/-! ## The shift bit -/

/-- Between two events no prefix is pending, and the shift bit says whether a shift key is down. -/
structure Synced (keys : Keys) (held : Held) : Prop where
  extended : keys.extended = false
  release : keys.release = false
  shift : keys.shift = if held.shift then 1 else 0

section Decoder

variable {keys : Keys} {held : Held}

theorem synced_start : Synced Keyboard.new.keys Held.none := ⟨rfl, rfl, rfl⟩

theorem shift_after_down (held : Held) (key : KeyCode) : (held.after (.down key)).shift =
    if IsShift key.code then true else held.shift := by
  simp only [Held.after, Held.shift, Function.update_apply]
  by_cases h₁ : (0x12 : UInt8) = key.code
  · have hs : IsShift key.code := .inl h₁.symm
    rw [if_pos h₁, if_pos hs, Bool.true_or]
  by_cases h₂ : (0x59 : UInt8) = key.code
  · have hs : IsShift key.code := .inr h₂.symm
    rw [if_pos h₂, if_pos hs, Bool.or_true]
  · have hno : ¬ IsShift key.code := fun h => h.elim (fun h => h₁ h.symm) fun h => h₂ h.symm
    rw [if_neg h₁, if_neg h₂, if_neg hno]

theorem shift_after_up {key : KeyCode} (h : ¬ IsShift key.code) :
    (held.after (.up key)).shift = held.shift := by
  have h₁ : (0x12 : UInt8) ≠ key.code := fun heq => h (.inl heq.symm)
  have h₂ : (0x59 : UInt8) ≠ key.code := fun heq => h (.inr heq.symm)
  simp only [Held.after, Held.shift, Function.update_apply, if_neg h₁, if_neg h₂]

/-- Setting the bit. -/
theorem shift_or (b : Bool) : (if b then (1 : UInt64) else 0) ||| SHIFT_MASK = 1 := by
  cases b <;> decide

/-- Clearing the bit. -/
theorem shift_and (b : Bool) : (if b then (1 : UInt64) else 0) &&& ~~~SHIFT_MASK = 0 := by
  cases b <;> decide

theorem released_shift (keys : Keys) (make : UInt8) : (released keys make).shift =
    if IsShift make then keys.shift &&& ~~~SHIFT_MASK else keys.shift := by
  rw [released]
  by_cases hs : IsShift make
  · rw [if_pos hs, if_pos hs]
  · rw [if_neg hs, if_neg hs]
    by_cases hc : make = 0x14
    · rw [if_pos hc]
    · rw [if_neg hc]

/-- A byte without prefix. -/
theorem decode_plain (h : Synced keys held) (key : KeyCode) :
    Synced (decode keys key.code).1 (held.after (.down key)) := by
  rw [decode, if_neg key.notPrefix.1, if_neg key.notPrefix.2, h.release, h.extended]
  simp only [Bool.false_eq_true, if_false]
  by_cases hs : IsShift key.code
  · rw [if_pos hs]
    refine ⟨rfl, rfl, ?_⟩
    rw [shift_after_down, if_pos hs, if_pos rfl, h.shift]
    exact shift_or _
  · rw [if_neg hs]
    have hkeep : keys.shift = if (held.after (.down key)).shift then 1 else 0 := by
      rw [shift_after_down, if_neg hs]
      exact h.shift
    by_cases hc : key.code = 0x14
    · rw [if_pos hc]
      exact ⟨rfl, rfl, hkeep⟩
    · rw [if_neg hc]
      exact ⟨rfl, rfl, hkeep⟩

/-- A byte behind the release prefix, whether the extended prefix came before or not: the shift bit
is right for the keys that stay down. -/
theorem decode_release {held' : Held} (key : KeyCode) (hrel : keys.release = true)
    (hshift : keys.shift = if held.shift then 1 else 0)
    (hend : IsShift key.code → held'.shift = false)
    (hkeep : ¬ IsShift key.code → held'.shift = held.shift) :
    Synced (decode keys key.code).1 held' := by
  rw [decode, if_neg key.notPrefix.1, if_neg key.notPrefix.2, if_pos hrel]
  refine ⟨rfl, rfl, ?_⟩
  show (released keys key.code).shift = _
  rw [released_shift, hshift]
  by_cases hs : IsShift key.code
  · rw [if_pos hs, hend hs]
    exact shift_and _
  · rw [if_neg hs, hkeep hs]

/-- A byte behind the extended prefix. -/
theorem decode_extended (key : KeyCode) (hrel : keys.release = false)
    (hext : keys.extended = true) : (decode keys key.code).1 = { keys with extended := false } := by
  rw [decode, if_neg key.notPrefix.1, if_neg key.notPrefix.2, hrel, hext]
  rfl

/-- **The bytes of one event keep the shift bit in step with the keys.** -/
theorem Synced.after {kb : Keyboard} (h : Synced kb.keys held) {event : KeyEvent}
    (hends : held.EndsShift event) :
    Synced (event.bytes.foldl irq1Handler kb).keys (held.after event) := by
  cases event with
  | down key => exact decode_plain h key
  | up key => exact decode_release key rfl h.shift hends shift_after_up
  | extendedDown key =>
    have hkeys : ((KeyEvent.extendedDown key).bytes.foldl irq1Handler kb).keys =
        { kb.keys with extended := false } := decode_extended key h.release rfl
    rw [hkeys]
    exact ⟨rfl, h.release, h.shift⟩
  | extendedUp key => exact decode_release key rfl h.shift hends fun _ => rfl

theorem synced_of_reachable {t : Typing} (h : t.Reachable) : Synced t.kb.keys t.held := by
  refine Reach.invariant (P := fun t => Synced t.kb.keys t.held) ?_ ?_ h
  · rintro t rfl
    exact synced_start
  · rintro t event t' hs ⟨-, hends⟩ rfl
    exact hs.after hends

end Decoder

/-! ## Printable keys -/

/-- The rows of the table are filled in both columns, and belong to no modifier. -/
theorem scancodeSet2_rows : ∀ row ∈ SCANCODE_SET2,
    row.1 < 128 ∧ ¬ IsShift row.1 ∧ row.1 ≠ 0x14 ∧ row.2.1 ≠ 0 ∧ row.2.2 ≠ 0 := by
  -- the table is checked row by row, not over all bytes
  have hall : SCANCODE_SET2.all (fun row => decide (row.1 < 128 ∧ ¬ IsShift row.1 ∧ row.1 ≠ 0x14 ∧
      row.2.1 ≠ 0 ∧ row.2.2 ≠ 0)) = true := by decide
  exact fun row hrow => of_decide_eq_true (all_eq_true.mp hall row hrow)

theorem row_of_printable {code : UInt8} (h : (scancodeRow code).1 ≠ 0) :
    (code, scancodeRow code) ∈ SCANCODE_SET2 := by
  rw [scancodeRow] at h ⊢
  cases hrow : SCANCODE_SET2.lookup code with
  | none =>
    rw [hrow] at h
    exact absurd rfl h
  | some row =>
    obtain ⟨before, behind, heq, -⟩ := lookup_eq_some_iff.mp hrow
    rw [heq]
    exact mem_append_right _ mem_cons_self

/-- The make code of a printable key pushes the column that the shift bit selects. -/
theorem irq1_printable {kb : Keyboard} {held : Held} (h : Synced kb.keys held) {key : KeyCode}
    (hrow : (scancodeRow key.code).1 ≠ 0) : (irq1Handler kb key.code).ring =
      pushChar kb.ring (if held.shift then (scancodeRow key.code).2
        else (scancodeRow key.code).1) := by
  obtain ⟨hlt, hshift, hctrl, hplain, hshifted⟩ := scancodeSet2_rows _ (row_of_printable hrow)
  have hcolumn : column kb.keys.shift (scancodeRow key.code) =
      if held.shift then (scancodeRow key.code).2 else (scancodeRow key.code).1 := by
    rw [column, h.shift]
    cases held.shift <;> rfl
  have hascii : scancodeToAscii kb.keys key.code =
      some (if held.shift then (scancodeRow key.code).2 else (scancodeRow key.code).1) := by
    rw [scancodeToAscii, if_neg (UInt8.not_le.mpr hlt), hcolumn]
    apply if_neg
    cases held.shift
    · exact hplain
    · exact hshifted
  have hdecode : (decode kb.keys key.code).2 =
      some (if held.shift then (scancodeRow key.code).2 else (scancodeRow key.code).1) := by
    rw [decode, if_neg key.notPrefix.1, if_neg key.notPrefix.2, h.release, h.extended]
    simp only [Bool.false_eq_true, if_false]
    rw [if_neg hshift, if_neg hctrl]
    exact hascii
  rw [irq1Handler, hdecode]

/-- **The shift state follows the keys.** After any possible events that satisfy `EndsShift`, the
make code of a printable key pushes the shifted byte when a shift key is down, and the other byte
when none is. -/
theorem shift_follows_keys (t : Typing) (ht : t.Reachable) (key : KeyCode)
    (hrow : (scancodeRow key.code).1 ≠ 0) : (t.after (.down key)).kb.ring =
      pushChar t.kb.ring
        (if t.held.shift then (scancodeRow key.code).2 else (scancodeRow key.code).1) :=
  irq1_printable (synced_of_reachable ht) hrow

theorem sample_notPrefix : ((0x12 : UInt8) ≠ 0xE0 ∧ (0x12 : UInt8) ≠ 0xF0) ∧
    ((0x59 : UInt8) ≠ 0xE0 ∧ (0x59 : UInt8) ≠ 0xF0) ∧
    ((0x1C : UInt8) ≠ 0xE0 ∧ (0x1C : UInt8) ≠ 0xF0) := by
  decide

/-- The left shift key. -/
def leftShift : KeyCode := ⟨0x12, sample_notPrefix.1⟩

/-- The right shift key. -/
def rightShift : KeyCode := ⟨0x59, sample_notPrefix.2.1⟩

/-- The key `a`. -/
def keyA : KeyCode := ⟨0x1C, sample_notPrefix.2.2⟩

/-- The left shift key is pressed and released, and `a` pushes `a`. With the right one down then it
pushes `A`. -/
theorem shift_follows_keys_released :
    let t := [.down leftShift, .up leftShift].foldl Typing.after Typing.start
    let t' := t.after (.down rightShift)
    (t.after (.down keyA)).kb.ring = pushChar t.kb.ring 0x61 ∧
      (t'.after (.down keyA)).kb.ring = pushChar t'.kb.ring 0x41 := by
  intro t t'
  have hdown : (Typing.start.after (.down leftShift)).Reachable :=
    .step (i := .down leftShift) (.init rfl) ⟨trivial, trivial⟩ rfl
  have ht : t.Reachable := .step (i := .up leftShift) hdown ⟨rfl, fun _ => rfl⟩ rfl
  have ht' : t'.Reachable := .step (i := .down rightShift) ht ⟨trivial, trivial⟩ rfl
  exact ⟨shift_follows_keys t ht keyA (by decide), shift_follows_keys t' ht' keyA (by decide)⟩

/-- A run of events with the keys that are down before each of them. -/
def PossibleRun : Held → List KeyEvent → Prop
  | _, [] => True
  | held, event :: events => held.Possible event ∧ PossibleRun (held.after event) events

/-- Left shift stays down, but `a` pushes `a`: after right shift was pressed and released, and after
the fake shift release of an extended key. -/
theorem shift_forgotten :
    PossibleRun Held.none [.down leftShift, .down rightShift, .up rightShift, .down keyA] ∧
    ([.down leftShift, .down rightShift, .up rightShift].foldl Typing.after Typing.start).held.shift
      = true ∧
    ([.down leftShift, .down rightShift, .up rightShift, .down keyA].foldl Typing.after
      Typing.start).kb.ring.buf 0 = 0x61 ∧
    PossibleRun Held.none [.down leftShift, .extendedUp leftShift, .down keyA] ∧
    ([.down leftShift, .extendedUp leftShift].foldl Typing.after Typing.start).held.shift = true ∧
    ([.down leftShift, .extendedUp leftShift, .down keyA].foldl Typing.after
      Typing.start).kb.ring.buf 0 = 0x61 := by
  refine ⟨⟨trivial, trivial, rfl, trivial, trivial⟩, by decide, by decide,
    ⟨trivial, .inr rfl, trivial, trivial⟩, by decide, by decide⟩

end PlanckOS.Input
