import Mathlib.Tactic

/-!
# Ring buffers

A ring of capacity `n` has `n` cells and two indices below `n`. The producer writes at `head`, the
consumer reads at `tail`; equal indices mean that the ring is empty, so one cell always stays free.

`Holds n r log t` relates a ring to the queue it stands for: `log` is everything that was ever
accepted and `t` counts what was taken from it. The indices are the two counts modulo `n`, and the
counts never drift apart by `n`, so they tell a full ring from an empty one (`Holds.full_iff`,
`Holds.empty_iff`). Accepting and taking keep the relation (`Holds.push`, `Holds.take`).
-/

set_option autoImplicit false

namespace PlanckOS.Lib

open List

universe u

variable {α : Type u}

/-- Cells and two indices. -/
structure RingBuffer (α : Type u) where
  buf : Nat → α
  head : Nat
  tail : Nat

namespace RingBuffer

/-- The ring has no cell left for another element. -/
def Full (n : Nat) (r : RingBuffer α) : Prop := (r.head + 1) % n = r.tail
  deriving Decidable

/-- Write an element at the head and move it on. -/
def put (n : Nat) (r : RingBuffer α) (c : α) : RingBuffer α where
  buf k := if k = r.head then c else r.buf k
  head := (r.head + 1) % n
  tail := r.tail

/-- Move the tail on. -/
def drop (n : Nat) (r : RingBuffer α) : RingBuffer α := { r with tail := (r.tail + 1) % n }

/-- The ring holds what was accepted after the first `t` elements of `log`. -/
structure Holds (n : Nat) (r : RingBuffer α) (log : List α) (t : Nat) : Prop where
  head : r.head = log.length % n
  tail : r.tail = t % n
  taken : t ≤ log.length
  room : log.length < t + n
  cells : ∀ k, t ≤ k → k < log.length → log[k]? = some (r.buf (k % n))

/-- Counts that are less than `n` apart are told apart modulo `n`. -/
theorem eq_of_mod_eq {n a b : Nat} (hle : b ≤ a) (hlt : a < b + n) (h : a % n = b % n) : a = b := by
  have hdvd : n ∣ a - b := (Nat.modEq_iff_dvd' hle).mp h.symm
  have hzero := Nat.eq_zero_of_dvd_of_lt hdvd (by omega)
  omega

variable {n : Nat} {r : RingBuffer α} {log : List α} {t : Nat}

namespace Holds

theorem head_lt (hn : 0 < n) (h : Holds n r log t) : r.head < n := by
  rw [h.head]
  exact Nat.mod_lt _ hn

theorem tail_lt (hn : 0 < n) (h : Holds n r log t) : r.tail < n := by
  rw [h.tail]
  exact Nat.mod_lt _ hn

variable (h : Holds n r log t)
include h

/-- The ring is empty when everything was taken. -/
theorem empty_iff : r.tail = r.head ↔ t = log.length := by
  rw [h.head, h.tail]
  constructor
  · intro heq
    exact (eq_of_mod_eq h.taken h.room heq.symm).symm
  · intro heq
    rw [heq]

/-- The ring is full when all cells but one hold elements that were not taken. -/
theorem full_iff : r.Full n ↔ log.length + 1 = t + n := by
  have htaken := h.taken
  have hroom := h.room
  rw [Full, h.head, h.tail, Nat.mod_add_mod]
  constructor
  · intro heq
    by_contra hne
    have := eq_of_mod_eq (by omega : t ≤ log.length + 1) (by omega) heq
    omega
  · intro heq
    rw [heq, Nat.add_mod_right]

/-- **Accepting an element.** -/
theorem push (hfull : ¬ r.Full n) (c : α) : Holds n (r.put n c) (log ++ [c]) t where
  head := by
    rw [put, length_append, length_singleton, h.head, Nat.mod_add_mod]
  tail := h.tail
  taken := by
    have := h.taken
    rw [length_append, length_singleton]
    omega
  room := by
    have hroom := h.room
    have hne := mt h.full_iff.mpr hfull
    rw [length_append, length_singleton]
    omega
  cells := by
    intro k hk hlt
    rw [length_append, length_singleton] at hlt
    by_cases hlast : k = log.length
    · subst hlast
      rw [getElem?_concat_length, put]
      simp only
      rw [if_pos h.head.symm]
    · -- the cell at the head is not in use
      have hroom := h.room
      have hcell : k % n ≠ r.head := by
        intro heq
        rw [h.head] at heq
        exact hlast (eq_of_mod_eq (by omega : k ≤ log.length) (by omega) heq.symm).symm
      rw [getElem?_append_left (by omega), put]
      simp only
      rw [if_neg hcell]
      exact h.cells k hk (by omega)

/-- The element at the tail is the next one to take. -/
theorem front (ht : t < log.length) : log[t]? = some (r.buf r.tail) := by
  rw [h.tail]
  exact h.cells t le_rfl ht

/-- **Taking an element.** -/
theorem take (ht : t < log.length) : Holds n (r.drop n) log (t + 1) where
  head := h.head
  tail := by rw [drop, h.tail, Nat.mod_add_mod]
  taken := ht
  room := by
    have := h.room
    omega
  cells k hk hlt := h.cells k (by omega) hlt

end Holds

end RingBuffer

end PlanckOS.Lib
