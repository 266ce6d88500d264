import PlanckOS.Lib.RingBuffer
import PlanckOS.Lib.Transition

/-!
# The keyboard ring of `src/hal/input.rs`

`push_char` runs inside the interrupt handler, so from the consumer's point of view it happens at
once. `getchar_impl` runs with interrupts enabled: it loads `tail`, loads `head`, reads the cell and
stores the new `tail`, and the interrupt may come between any two of these.

`keyRing_fifo` holds for every interleaving: what `getchar` returned is the beginning of what was
accepted, a byte is refused only while 255 accepted bytes are unread, and both indices stay inside
of the buffer. The invariant ties the ring to the queue it stands for (`RingBuffer.Holds`) and the
locals of the consumer to the counts behind the indices. `tail` is only stored by the consumer, so
its local copy is current; `head` only moves on, so a local copy that differs from `tail` proves
that the cell is filled.
-/

set_option autoImplicit false

namespace PlanckOS.Input

open Lib Lib.Transition List

/-! ## Model -/

/-- `BUF_SZ`. -/
def BUF_SZ : Nat := 256

/-- The bytes and the two indices of `KB_BUF`. -/
abbrev RingBuf := RingBuffer UInt8

/-- The ring before the first key. -/
def RingBuf.new : RingBuf := ⟨fun _ => 0, 0, 0⟩

/-- `push_char`: the byte is dropped when the ring is full. -/
def pushChar (kb : RingBuf) (c : UInt8) : RingBuf :=
  if kb.Full BUF_SZ then kb else kb.put BUF_SZ c

/-- Where `getchar_impl` stands, with its locals. -/
inductive Getchar where
  | start
  /-- `tail` is loaded. -/
  | tailLoaded (tail : Nat)
  /-- `tail` and `head` are loaded and not compared yet. -/
  | headLoaded (tail head : Nat)
  /-- The byte is read, the new `tail` is not stored yet. -/
  | byteRead (tail : Nat) (c : UInt8)
  deriving DecidableEq, Repr

/-- The byte that an interrupt left in the ring: the one at the old head, if the head has moved. -/
def stored (kb kb' : RingBuf) : List UInt8 :=
  if kb'.head = kb.head then [] else [kb'.buf kb.head]

/-- The ring, the consumer, the bytes accepted by `push_char` and the bytes `getchar` returned. -/
structure KeyQueue where
  ring : RingBuf
  consumer : Getchar
  accepted : List UInt8
  returned : List UInt8

/-- An interrupt that delivers a byte, or a step of the consumer. -/
inductive KeyStep where
  | push (c : UInt8)
  | getchar
  deriving DecidableEq, Repr

namespace KeyQueue

/-- Nothing was typed and nothing was asked for. -/
def empty : KeyQueue := ⟨RingBuf.new, .start, [], []⟩

/-- One step of `getchar_impl`. With nothing to read the loop starts again; the store of `tail` ends
the call, and the next call starts from there. -/
def getcharStep (s : KeyQueue) : KeyQueue :=
  match s.consumer with
  | .start => { s with consumer := .tailLoaded s.ring.tail }
  | .tailLoaded tail => { s with consumer := .headLoaded tail s.ring.head }
  | .headLoaded tail head =>
      if tail ≠ head then { s with consumer := .byteRead tail (s.ring.buf tail) }
      else { s with consumer := .start }
  | .byteRead tail c =>
      { s with
        ring := { s.ring with tail := (tail + 1) % BUF_SZ }
        consumer := .start
        returned := s.returned ++ [c] }

/-- One step of the system. -/
def step (s : KeyQueue) : KeyStep → KeyQueue
  | .push c =>
      { s with
        ring := pushChar s.ring c
        accepted := s.accepted ++ stored s.ring (pushChar s.ring c) }
  | .getchar => s.getcharStep

/-- States reached by any interleaving. -/
abbrev Reachable : KeyQueue → Prop :=
  Reach (fun s => s = empty) (fun _ (_ : KeyStep) => True) fun s a s' => s.step a = s'

/-! ## Invariant -/

/-- What the locals of the consumer say about a ring with `accepted`, of which `t` bytes are taken.
-/
def Consistent (ring : RingBuf) (accepted : List UInt8) (t : Nat) : Getchar → Prop
  | .start => True
  | .tailLoaded tail => tail = ring.tail
  | .headLoaded tail head => tail = ring.tail ∧ (tail ≠ head → t < accepted.length)
  | .byteRead tail c => tail = ring.tail ∧ accepted[t]? = some c

/-- The ring stands for the accepted bytes behind the returned ones. -/
structure Inv (s : KeyQueue) : Prop where
  holds : s.ring.Holds BUF_SZ s.accepted s.returned.length
  consumer : Consistent s.ring s.accepted s.returned.length s.consumer
  fifo : s.returned <+: s.accepted

theorem inv_empty : Inv empty where
  holds := ⟨rfl, rfl, le_rfl, by decide, fun k _ hk => absurd hk (Nat.not_lt_zero k)⟩
  consumer := trivial
  fifo := ⟨[], rfl⟩

/-- Accepting another byte does not disturb the consumer. -/
theorem Consistent.push {ring : RingBuf} {accepted : List UInt8} {t : Nat} {g : Getchar}
    (h : Consistent ring accepted t g) (c : UInt8) :
    Consistent (ring.put BUF_SZ c) (accepted ++ [c]) t g := by
  cases g with
  | start => trivial
  | tailLoaded tail => exact h
  | headLoaded tail head =>
    refine ⟨h.1, ?_⟩
    intro hne
    have := h.2 hne
    rw [length_append]
    omega
  | byteRead tail b =>
    refine ⟨h.1, ?_⟩
    have hlt := (List.getElem?_eq_some_iff.mp h.2).1
    rw [getElem?_append_left hlt]
    exact h.2

/-- A full ring stays as it is. -/
theorem step_push_full {s : KeyQueue} (hfull : s.ring.Full BUF_SZ) (c : UInt8) :
    s.step (.push c) = s := by
  have hring : pushChar s.ring c = s.ring := if_pos hfull
  rw [step, hring, stored, if_pos rfl, append_nil]

/-- Otherwise the byte is in the ring and the head has moved. -/
theorem step_push {s : KeyQueue} (hfull : ¬ s.ring.Full BUF_SZ) (c : UInt8) : s.step (.push c) =
      { s with ring := s.ring.put BUF_SZ c, accepted := s.accepted ++ [c] } := by
  have hring : pushChar s.ring c = s.ring.put BUF_SZ c := if_neg hfull
  have hmoved : (s.ring.put BUF_SZ c).head ≠ s.ring.head := by
    simp only [RingBuffer.put, BUF_SZ]
    omega
  rw [step, hring, stored, if_neg hmoved]
  simp [RingBuffer.put]

theorem Inv.push {s : KeyQueue} (h : Inv s) (c : UInt8) : Inv (s.step (.push c)) := by
  by_cases hfull : s.ring.Full BUF_SZ
  · rw [step_push_full hfull]
    exact h
  · rw [step_push hfull]
    exact ⟨h.holds.push hfull c, h.consumer.push c, h.fifo.trans (prefix_append _ _)⟩

/-- The next byte to return extends what was returned. -/
theorem prefix_concat {returned accepted : List UInt8} {c : UInt8} (h : returned <+: accepted)
    (hc : accepted[returned.length]? = some c) : returned ++ [c] <+: accepted := by
  obtain ⟨rest, rfl⟩ := h
  rw [getElem?_append_right le_rfl, Nat.sub_self] at hc
  cases rest with
  | nil => cases hc
  | cons b rest =>
    obtain rfl : b = c := Option.some.inj hc
    exact ⟨rest, by rw [append_assoc, singleton_append]⟩

theorem Inv.getchar {s : KeyQueue} (h : Inv s) : Inv s.getcharStep := by
  have hcon := h.consumer
  rw [getcharStep]
  cases hpc : s.consumer with
  | start => exact ⟨h.holds, rfl, h.fifo⟩
  | tailLoaded tail =>
    rw [hpc] at hcon
    refine ⟨h.holds, ⟨hcon, ?_⟩, h.fifo⟩
    -- the two loads see different indices only when something is unread
    intro hne
    have htaken := h.holds.taken
    have hne' : s.returned.length ≠ s.accepted.length := by
      intro heq
      exact hne (hcon.trans (h.holds.empty_iff.mpr heq))
    show s.returned.length < s.accepted.length
    omega
  | headLoaded tail head =>
    rw [hpc] at hcon
    obtain ⟨rfl, hfilled⟩ := hcon
    by_cases hne : s.ring.tail ≠ head
    · simp only [if_pos hne]
      exact ⟨h.holds, ⟨rfl, h.holds.front (hfilled hne)⟩, h.fifo⟩
    · simp only [if_neg hne]
      exact ⟨h.holds, trivial, h.fifo⟩
  | byteRead tail c =>
    rw [hpc] at hcon
    obtain ⟨rfl, hc⟩ := hcon
    have hlt := (List.getElem?_eq_some_iff.mp hc).1
    refine ⟨?_, trivial, prefix_concat h.fifo hc⟩
    simp only [length_append, length_singleton]
    exact h.holds.take hlt

theorem inv_of_reachable {s : KeyQueue} (h : Reachable s) : Inv s := by
  refine Reach.invariant ?_ ?_ h
  · rintro s rfl
    exact inv_empty
  · rintro s a s' hs - rfl
    cases a with
    | push c => exact hs.push c
    | getchar => exact hs.getchar

end KeyQueue

/-- **The keyboard ring is a lossless queue.** Whatever the interleaving of interrupts with the
steps of the consumer, the bytes that `getchar` returned are the first ones that were accepted, in
order; the ring holds the others, in order from the tail on; the next byte is refused only when 255
accepted bytes are unread; and the indices stay below 256. -/
theorem keyRing_fifo (s : KeyQueue) (h : s.Reachable) : s.returned <+: s.accepted ∧
    s.ring.Holds BUF_SZ s.accepted s.returned.length ∧
    (∀ c, (s.step (.push c)).accepted ≠ s.accepted ++ [c] →
      s.accepted.length = s.returned.length + 255) ∧
    s.ring.head < 256 ∧ s.ring.tail < 256 := by
  have hinv := KeyQueue.inv_of_reachable h
  refine ⟨hinv.fifo, hinv.holds, ?_, hinv.holds.head_lt (by decide), hinv.holds.tail_lt (by decide)⟩
  intro c hrejected
  by_cases hfull : s.ring.Full BUF_SZ
  · have := hinv.holds.full_iff.mp hfull
    rw [BUF_SZ] at this
    omega
  · exact absurd (congrArg KeyQueue.accepted (KeyQueue.step_push hfull c)) hrejected

/-- A byte arrives between the two loads and another one before the store, which stays in the ring.
-/
theorem keyRing_fifo_interrupted :
    ∃ s : KeyQueue, s.Reachable ∧ s.returned = [0x61] ∧ s.accepted = [0x61, 0x62] ∧
      s.returned <+: s.accepted ∧ s.ring.buf s.ring.tail = 0x62 := by
  have hrun : ∀ steps : List KeyStep, (steps.foldl KeyQueue.step KeyQueue.empty).Reachable := by
    intro steps
    induction steps using reverseRecOn with
    | nil => exact .init rfl
    | append_singleton steps a ih =>
      rw [foldl_append]
      exact .step ih trivial rfl
  have h := hrun [.getchar, .push 0x61, .getchar, .getchar, .push 0x62, .getchar]
  have hfifo := keyRing_fifo _ h
  have hunread := hfifo.2.1.front (by decide)
  exact ⟨_, h, by decide, by decide, hfifo.1, (Option.some.inj hunread).symm⟩

end PlanckOS.Input
