import PlanckOS.Lib.ByteMemory
import PlanckOS.Lib.Loop

/-!
# The boundary-tag heap of `src/hal/heap.rs`

`HeapCore` and its operations over raw memory. A chunk is
`[prev_size : u64][size : u64, flags in the low bits][payload ...]`; `prev_size` is the footer of
the chunk before while that one is free. Bit 0 of the size word is `IN_USE`, bit 1 is
`PREV_IN_USE`. A segment is fenced by a prologue and an epilogue chunk that stay in use.

Addresses and counters are `usize` / `u64` values: naturals below `2 ^ 64`, with the wrapping
arithmetic of the release profile. The walks over chunk headers take at most `WALK_BOUND` rounds;
their state is one address, so a walk that is cut off there does not end at all and the result
`none` means divergence.
-/

set_option autoImplicit false

namespace PlanckOS.Heap

open Lib.Word Lib.ByteMemory Lib.Loop

/-! ## Constants -/

/-- The step of chunk addresses and sizes. -/
def CHUNK_ALIGN : Nat := 16
/-- The least chunk. -/
def MIN_CHUNK : Nat := 32
/-- The room in the segment table. -/
def MAX_SEGMENTS : Nat := 16
/-- The size bits of a header word. -/
def SIZE_MASK : Nat := 2 ^ 64 - 1 - 0x7
/-- The flag of a chunk in use. -/
def IN_USE : Nat := 0x1
/-- The flag behind a chunk in use. -/
def PREV_IN_USE : Nat := 0x2
/-- The fence at the start. -/
def PROLOGUE_SIZE : Nat := 16
/-- The fence at the end. -/
def EPILOGUE_SIZE : Nat := 16
/-- The bytes in front of a payload. -/
def HEADER_SIZE : Nat := 16

/-- Rounds after which a chunk walk has certainly revisited an address. -/
@[irreducible] def WALK_BOUND : Nat := 2 ^ 64

/-! ## Chunk fields -/

/-- The size in a header. -/
def sizeOf (m : Mem) (chunk : Nat) : Nat := readWord m (wadd chunk 8) &&& SIZE_MASK

/-- The flags in a header. -/
def flagsOf (m : Mem) (chunk : Nat) : Nat := readWord m (wadd chunk 8) &&& (2 ^ 64 - 1 - SIZE_MASK)

/-- Store size and flags. -/
def setHeader (m : Mem) (chunk size flags : Nat) : Mem :=
  writeWord m (wadd chunk 8) (size ||| flags)

/-- The footer of the chunk before, which is its size if it is free. -/
def prevSizeOf (m : Mem) (chunk : Nat) : Nat := readWord m chunk &&& SIZE_MASK

/-- Store the footer of the chunk before. -/
def setPrevSize (m : Mem) (chunk size : Nat) : Mem := writeWord m chunk size

/-- The pointer that the client gets. -/
def payloadOf (chunk : Nat) : Nat := wadd chunk HEADER_SIZE

/-! ## Helpers -/

/-- `(x + a - 1) & !(a - 1)`. -/
def alignUp (x a : Nat) : Nat := wsub (wadd x a) 1 &&& (2 ^ 64 - 1 - (a - 1))

/-- `align_up` of a sum; `none` is an overflow. -/
def alignUpChecked (x : Option Nat) (a : Nat) : Option Nat :=
  x.bind fun v => (checkedAdd v (a - 1)).map fun v => v &&& (2 ^ 64 - 1 - (a - 1))

/-! ## Allocator state -/

/-- `core::alloc::Layout`: the alignment is a power of two and the size, rounded up to it, does
not exceed `isize::MAX`. -/
structure Layout where
  size : Nat
  align : Nat
  align_pow : align.isPowerOfTwo
  size_le : size + align ≤ 2 ^ 63

/-- Memory of the heap, with both fences. -/
structure Segment where
  base : Nat
  endAddr : Nat
  deriving DecidableEq, Repr

/-- Allocator state. The segment array and its count are one list. -/
structure HeapCore where
  segments : List Segment
  freeBytes : Nat
  allocCount : Nat
  oomCount : Nat
  alignFailCount : Nat
  badFreeCount : Nat
  doubleFreeCount : Nat
  deriving DecidableEq, Repr

namespace HeapCore

/-- A heap without segments. -/
def new : HeapCore := ⟨[], 0, 0, 0, 0, 0, 0⟩

/-! ## `init_region` -/

/-- Install `[base, endAddr)` as a new segment: prologue, one free chunk, epilogue. -/
def initRegion (h : HeapCore) (m : Mem) (base endAddr : Nat) : HeapCore × Mem :=
  if MAX_SEGMENTS ≤ h.segments.length then (h, m)
  else
    let base := alignUp base CHUNK_ALIGN
    let endAddr := endAddr &&& (2 ^ 64 - 1 - (CHUNK_ALIGN - 1))
    if endAddr < wadd (wadd (wadd base MIN_CHUNK) PROLOGUE_SIZE) EPILOGUE_SIZE then (h, m)
    else
      let freeSize := wsub (wsub (wsub endAddr base) PROLOGUE_SIZE) EPILOGUE_SIZE
      let m := setHeader m base PROLOGUE_SIZE (IN_USE ||| PREV_IN_USE)
      let m := setHeader m (wadd base PROLOGUE_SIZE) freeSize PREV_IN_USE
      let m := setPrevSize m (wsub endAddr EPILOGUE_SIZE) freeSize
      let m := setHeader m (wsub endAddr EPILOGUE_SIZE) EPILOGUE_SIZE IN_USE
      ({ h with
          segments := h.segments ++ [⟨base, endAddr⟩]
          freeBytes := wadd h.freeBytes freeSize }, m)

/-! ## `alloc` -/

/-- One round of the first-fit walk: leave with the chunk that fits, leave without one at the
epilogue or at a zeroed or bogus header, or go to the next chunk. -/
def fitStep (m : Mem) (needed epilogue chunk : Nat) : Flow Nat (Option Nat) :=
  if chunk < epilogue then
    let sz := sizeOf m chunk
    if sz < MIN_CHUNK ∨ sz % CHUNK_ALIGN ≠ 0 then .done none
    else if flagsOf m chunk &&& IN_USE = 0 ∧ needed ≤ sz then .done (some chunk)
    else .next (wadd chunk sz)
  else .done none

/-- The first-fit walk over one segment. -/
def findFit (m : Mem) (needed : Nat) (seg : Segment) : Option (Option Nat) :=
  loop (fitStep m needed (wsub seg.endAddr EPILOGUE_SIZE)) WALK_BOUND
    (wadd seg.base PROLOGUE_SIZE)

/-- The segment loop: the first chunk that fits, in segment order. -/
def findChunk (m : Mem) (needed : Nat) : List Segment → Option (Option Nat)
  | [] => some none
  | seg :: segs =>
      (findFit m needed seg).bind fun
        | some chunk => some (some chunk)
        | none => findChunk m needed segs

/-- Take `needed` bytes of the free chunk `chunk`: split when the remainder can stand as a chunk,
else take it whole. -/
def place (h : HeapCore) (m : Mem) (chunk needed : Nat) : HeapCore × Mem :=
  let sz := sizeOf m chunk
  let flags := flagsOf m chunk
  let rest := wsub sz needed
  if MIN_CHUNK ≤ rest then
    let right := wadd chunk needed
    let m := setPrevSize m right needed
    let m := setHeader m right rest PREV_IN_USE
    let m := setHeader m chunk needed ((flags &&& PREV_IN_USE) ||| IN_USE)
    -- the old footer, in the chunk after, now describes the right part
    let m := setPrevSize m (wadd chunk sz) rest
    ({ h with freeBytes := wsub h.freeBytes needed, allocCount := wadd h.allocCount 1 }, m)
  else
    let m := setHeader m chunk sz ((flags &&& PREV_IN_USE) ||| IN_USE)
    let a := wadd chunk sz
    let m := setHeader m a (sizeOf m a) ((flagsOf m a &&& IN_USE) ||| PREV_IN_USE)
    ({ h with freeBytes := wsub h.freeBytes sz, allocCount := wadd h.allocCount 1 }, m)

/-- The chunk size a request needs: header and payload, rounded up, at least `MIN_CHUNK`. -/
def neededSize (layout : Layout) : Option Nat :=
  (alignUpChecked (checkedAdd (max layout.size 1) HEADER_SIZE) CHUNK_ALIGN).map (max · MIN_CHUNK)

/-- Allocate a block for `layout`; the null pointer is `0`. -/
def alloc (h : HeapCore) (m : Mem) (layout : Layout) : Option (Nat × HeapCore × Mem) :=
  if CHUNK_ALIGN < layout.align then
    some (0, { h with alignFailCount := wadd h.alignFailCount 1 }, m)
  else
    match neededSize layout with
    | none => some (0, h, m)
    | some needed =>
        (findChunk m needed h.segments).map fun
          | none => (0, { h with oomCount := wadd h.oomCount 1 }, m)
          | some chunk => (payloadOf chunk, h.place m chunk needed)

/-! ## `dealloc` -/

/-- Count a bad free. -/
def badFree (h : HeapCore) : HeapCore := { h with badFreeCount := wadd h.badFreeCount 1 }

/-- Count a double free. -/
def doubleFree (h : HeapCore) : HeapCore := { h with doubleFreeCount := wadd h.doubleFreeCount 1 }

/-- `chunk` is the address of a header between the fences of `seg`. -/
def inChunkArea (seg : Segment) (chunk : Nat) : Bool :=
  decide (wadd seg.base PROLOGUE_SIZE ≤ chunk) && decide (chunk < wsub seg.endAddr EPILOGUE_SIZE)

/-- Backward coalescing: the span starts at the previous chunk when that one is free, and the
header of `c` is then neutralised. `none` is the bad free of a corrupt `prev_size`. The result is
the span's start and size, and the memory. -/
def coalesceBackward (m : Mem) (seg : Segment) (c cflags cSize : Nat) : Option (Nat × Nat × Mem) :=
  if cflags &&& PREV_IN_USE = 0 then
    let prev := c - prevSizeOf m c
    if prev < wadd seg.base PROLOGUE_SIZE then none
    else some (prev, wadd cSize (sizeOf m prev), setHeader m c 0 0)
  else some (c, cSize, m)

/-- One round of forward coalescing on `(n, span_size, memory)`: absorb the free chunk `n` and
neutralise its header. -/
def absorbStep (segEnd : Nat) : Nat × Nat × Mem → Flow (Nat × Nat × Mem) (Nat × Nat × Mem)
  | (n, spanSize, m) =>
      if n < segEnd ∧ flagsOf m n &&& IN_USE = 0 then
        let ns := sizeOf m n
        if ns < MIN_CHUNK ∨ ns % CHUNK_ALIGN ≠ 0 then .done (n, spanSize, m)
        else .next (wadd n ns, wadd spanSize ns, setHeader m n 0 0)
      else .done (n, spanSize, m)

/-- The span becomes one free chunk: footer at `n`, header at `span`, and `n` sees a free
predecessor. -/
def finishFree (m : Mem) (span spanSize n : Nat) : Mem :=
  let m := setPrevSize m n spanSize
  let m := setHeader m span spanSize (flagsOf m span &&& PREV_IN_USE)
  setHeader m n (sizeOf m n) (flagsOf m n &&& IN_USE)

/-- Forward coalescing from the end of `c`, then the merged chunk and the counters. Only `cSize`
enters the free pool: the neighbours were counted as free before. -/
def mergeForward (h : HeapCore) (m : Mem) (segEnd c cSize span spanSize : Nat) :
    Option (HeapCore × Mem) :=
  (loop (absorbStep segEnd) WALK_BOUND (wadd c cSize, spanSize, m)).map fun (n, spanSize, m) =>
    -- a walk past the epilogue is only possible with a corrupt size
    if segEnd < n then (h.badFree, m)
    else
      ({ h with
          freeBytes := wadd h.freeBytes cSize
          allocCount := wsub h.allocCount 1 },
        finishFree m span spanSize n)

/-- Free the block at `ptr`. -/
def dealloc (h : HeapCore) (m : Mem) (ptr : Nat) : Option (HeapCore × Mem) :=
  if ptr = 0 then some (h.badFree, m)
  else if ptr % CHUNK_ALIGN ≠ 0 then some (h.badFree, m)
  else
    let c := wsub ptr HEADER_SIZE
    match h.segments.find? (inChunkArea · c) with
    | none => some (h.badFree, m)
    | some seg =>
        let segEnd := wsub seg.endAddr EPILOGUE_SIZE
        let cflags := flagsOf m c
        if cflags &&& IN_USE = 0 then some (h.doubleFree, m)
        else
          let cSize := sizeOf m c
          if cSize % CHUNK_ALIGN ≠ 0 ∨ cSize < MIN_CHUNK then some (h.badFree, m)
          else
            match coalesceBackward m seg c cflags cSize with
            | none => some (h.badFree, m)
            | some (span, spanSize, m) => h.mergeForward m segEnd c cSize span spanSize

/-! ## `check_invariants` -/

/-- One round of the validation walk: leave with `none` on a violation, leave with the address
reached once it is not below the epilogue, or go to the next chunk. -/
def checkStep (m : Mem) (epilogue c : Nat) : Flow Nat (Option Nat) :=
  if epilogue ≤ c then .done (some c)
  else
    let sz := sizeOf m c
    if sz < MIN_CHUNK ∨ sz % CHUNK_ALIGN ≠ 0 then .done none
    else if epilogue < wadd c sz then .done none
    else
      let cflags := flagsOf m c
      let next := wadd c sz
      if next < epilogue then
        if cflags &&& IN_USE = 0 then
          if prevSizeOf m next ≠ sz then .done none
          else if flagsOf m next &&& IN_USE = 0 ∨ flagsOf m next &&& PREV_IN_USE ≠ 0 then .done none
          else .next next
        else if flagsOf m next &&& PREV_IN_USE = 0 then .done none
        else .next next
      else if cflags &&& IN_USE = 0 then
        if prevSizeOf m next ≠ sz ∨ flagsOf m next &&& PREV_IN_USE ≠ 0 then .done none
        else .next next
      else .next next

/-- Validation of one segment. -/
def checkSegment (m : Mem) (seg : Segment) : Option Bool :=
  let epilogue := wsub seg.endAddr EPILOGUE_SIZE
  if sizeOf m seg.base ≠ PROLOGUE_SIZE ∨
      flagsOf m seg.base &&& (IN_USE ||| PREV_IN_USE) ≠ (IN_USE ||| PREV_IN_USE) then some false
  else
    (loop (checkStep m epilogue) WALK_BOUND (wadd seg.base PROLOGUE_SIZE)).map fun
      | none => false
      | some c =>
          if c ≠ epilogue then false
          else if sizeOf m c ≠ EPILOGUE_SIZE ∨ flagsOf m c &&& IN_USE = 0 then false
          else true

/-- Full structural validation of the segments in order, up to the first violation. -/
def checkSegments (m : Mem) : List Segment → Option Bool
  | [] => some true
  | seg :: segs =>
      (checkSegment m seg).bind fun ok => if ok then checkSegments m segs else some false

/-- All segments pass. -/
def checkInvariants (h : HeapCore) (m : Mem) : Option Bool := checkSegments m h.segments

end HeapCore

end PlanckOS.Heap
