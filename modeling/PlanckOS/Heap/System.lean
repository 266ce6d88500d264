import PlanckOS.Heap.Core
import PlanckOS.Lib.Transition

/-!
# The heap and its clients

A state of the system is the allocator, the memory, and what the clients know: the regions handed
to `init_region`, the blocks they hold, and the history of blocks taken and given back. A step is
one of the operations a correct client may perform: installing a region disjoint from the earlier
ones, allocating with any layout, freeing a block it holds, and writing a byte inside the payload
of a block it holds.

The addresses in the top 80 bytes of the address space need care: `init_region` computes
`align_up(base, 16) + 64` without an overflow check, so for such a base its test for tiny regions
is passed by every region. `BelowTop` is the condition on a step that keeps away from this.
-/

set_option autoImplicit false

namespace PlanckOS.Heap

open Lib.ByteMemory Lib.Transition

/-- A block held by a client. -/
structure Block where
  ptr : Nat
  layout : Layout

/-- A region `[base, endAddr)` handed to the allocator. -/
structure Region where
  base : Nat
  endAddr : Nat
  deriving DecidableEq, Repr

/-- The two regions have no address in common. -/
def Region.disjoint (r r' : Region) : Bool :=
  decide (r.endAddr ≤ r.base) || decide (r'.endAddr ≤ r'.base) ||
    decide (r.endAddr ≤ r'.base) || decide (r'.endAddr ≤ r.base)

/-- What happened to a block: the chunk of `size` bytes before and behind `ptr` was allocated, or
the block was freed. -/
inductive HeapEvent where
  | alloc (ptr size : Nat)
  | dealloc (ptr : Nat)

/-- By the history, newest event first: `ptr` was freed, and no chunk allocated since covers a byte
of its header `[ptr - 16, ptr)`. -/
def Stale : List HeapEvent → Nat → Prop
  | [], _ => False
  | .dealloc q :: log, p => p = q ∨ Stale log p
  | .alloc q size :: log, p =>
      Stale log p ∧ (p ≤ q - HEADER_SIZE ∨ q - HEADER_SIZE + size ≤ p - HEADER_SIZE)

instance decidableStale : (log : List HeapEvent) → (p : Nat) → Decidable (Stale log p)
  | [], _ => instDecidableFalse
  | .dealloc q :: log, p =>
      have := decidableStale log p
      inferInstanceAs (Decidable (p = q ∨ Stale log p))
  | .alloc _ _ :: log, p =>
      have := decidableStale log p
      inferInstanceAs (Decidable (Stale log p ∧ _))

/-- The allocator together with its clients. -/
structure HeapSystem where
  core : HeapCore
  mem : Mem
  live : List Block
  regions : List Region
  log : List HeapEvent

/-- A client's operation. -/
inductive HeapOp where
  | initRegion (base endAddr : Nat)
  | alloc (layout : Layout)
  | dealloc (ptr : Nat)
  | write (addr : Nat) (byte : UInt8)

namespace HeapSystem

/-- The empty heap over some memory. -/
def start (m : Mem) : HeapSystem := ⟨HeapCore.new, m, [], [], []⟩

section

variable (s : HeapSystem)

/-- `p` is a block somebody holds. -/
def holds (p : Nat) : Bool := s.live.any fun b => b.ptr == p

/-- `x` is a payload byte of a block somebody holds. -/
def inPayload (x : Nat) : Bool :=
  s.live.any fun b => decide (b.ptr ≤ x) && decide (x < b.ptr + b.layout.size)

/-- One operation; `none` when it is not one a client may perform here, or does not return. -/
def step : HeapOp → Option HeapSystem
  | .initRegion base endAddr =>
      if base < 2 ^ 64 ∧ endAddr < 2 ^ 64 ∧ s.regions.all (·.disjoint ⟨base, endAddr⟩) then
        let r := s.core.initRegion s.mem base endAddr
        some { s with core := r.1, mem := r.2, regions := ⟨base, endAddr⟩ :: s.regions }
      else none
  | .alloc layout =>
      (s.core.alloc s.mem layout).map fun (p, core, mem) =>
        if p = 0 then { s with core, mem }
        else
          { s with
            core, mem
            live := ⟨p, layout⟩ :: s.live
            log := .alloc p (sizeOf mem (p - HEADER_SIZE)) :: s.log }
  | .dealloc ptr =>
      if s.holds ptr then
        (s.core.dealloc s.mem ptr).map fun (core, mem) =>
          { s with
            core, mem
            live := s.live.filter fun b => b.ptr != ptr
            log := .dealloc ptr :: s.log }
      else none
  | .write addr byte =>
      if s.inPayload addr then some { s with mem := writeByte s.mem addr byte } else none

/-- The step as a relation. -/
abbrev Steps (op : HeapOp) (s' : HeapSystem) : Prop := s.step op = some s'

/-- A run of operations. -/
def run (ops : List HeapOp) : Option HeapSystem := runSteps step s ops

/-- A new segment, if one is still installed, starts at most 80 bytes below the top of the address
space. -/
def BelowTop : HeapOp → Prop
  | .initRegion base _ => MAX_SEGMENTS ≤ s.core.segments.length ∨ base + 80 ≤ 2 ^ 64
  | _ => True

/-- States of the empty heap. -/
def Initial : Prop := ∃ m, s = start m

end

/-- States reached by client operations. -/
abbrev Reachable : HeapSystem → Prop := Reach Initial (fun _ _ => True) Steps

theorem reachable_of_run {m : Mem} {s : HeapSystem} {ops : List HeapOp}
    (h : (start m).run ops = some s) : s.Reachable :=
  .of_run (.init ⟨_, rfl⟩) (fun _ _ _ => trivial) h

/-- States reached by client operations that satisfy `BelowTop`. -/
abbrev ReachableBelowTop : HeapSystem → Prop := Reach Initial BelowTop Steps

end HeapSystem

/-- The empty heap over zeroed memory. -/
abbrev zeroStart : HeapSystem := .start fun _ => 0

end PlanckOS.Heap
