import PlanckOS.Heap.Arena

/-!
# Reading a segment back

`chunkMap` walks a segment by its size words and records what every header says. On a well-formed
segment the walk ends and the records are those of its chunks (`SegmentInv.chunkMap_eq`), so
statements about the chunk map are statements about raw memory. `check_invariants` makes the same
walk and accepts every well-formed segment (`Arena.checkSegments_eq`).
-/

set_option autoImplicit false

namespace PlanckOS.Heap

open Lib.Word Lib.ByteMemory Lib.Loop Lib.Tiling
open List hiding span

variable {m : Mem} {a e n : Nat} {pu : Bool} {cs : List Cell}

/-! ## The chunk map -/

/-- One chunk as its header shows it; a free chunk with the `prev_size` word after it. -/
structure ChunkInfo where
  addr : Nat
  size : Nat
  inUse : Bool
  prevInUse : Bool
  footer : Option Nat
  deriving DecidableEq, Repr

/-- The record of the chunk at `c`. -/
def chunkInfo (m : Mem) (c : Nat) : ChunkInfo where
  addr := c
  size := sizeOf m c
  inUse := decide (flagsOf m c &&& IN_USE ≠ 0)
  prevInUse := decide (flagsOf m c &&& PREV_IN_USE ≠ 0)
  footer := if flagsOf m c &&& IN_USE = 0 then some (readWord m (wadd c (sizeOf m c))) else none

/-- One round of the walk: record the chunk below the epilogue, and the epilogue at the end. -/
def mapStep (m : Mem) (epilogue : Nat) :
    Nat × List ChunkInfo → Flow (Nat × List ChunkInfo) (List ChunkInfo)
  | (c, acc) =>
      if c < epilogue then .next (wadd c (sizeOf m c), acc ++ [chunkInfo m c])
      else .done (acc ++ [chunkInfo m epilogue])

/-- The records of a segment, its epilogue last. -/
def chunkMap (m : Mem) (seg : Segment) : Option (List ChunkInfo) :=
  loop (mapStep m (wsub seg.endAddr EPILOGUE_SIZE)) WALK_BOUND (wadd seg.base PROLOGUE_SIZE, [])

/-- Total size of the free chunks recorded. -/
def freeTotal (l : List ChunkInfo) : Nat := (l.map fun i => if i.inUse then 0 else i.size).sum

/-- Total size of the free chunks of all segments. -/
def freeChunkBytes (m : Mem) : List Segment → Option Nat
  | [] => some 0
  | seg :: segs =>
      (chunkMap m seg).bind fun l => (freeChunkBytes m segs).map fun n => freeTotal l + n

/-- The records of the chunks `cs` from `a`, and of the epilogue. -/
def infoList : Nat → Bool → List Cell → List ChunkInfo
  | a, pu, [] => [⟨a, EPILOGUE_SIZE, true, pu, none⟩]
  | a, pu, c :: cs =>
      ⟨a, c.size, c.used, pu, if c.used then none else some c.size⟩ ::
        infoList (a + c.size) c.used cs

theorem chunkInfo_header {size : Nat} {used prev : Bool} (h : Header m a size used prev)
    (hfoot : used = false → readWord m (wadd a size) = size) :
    chunkInfo m a = ⟨a, size, used, prev, if used then none else some size⟩ := by
  have hu := h.inUse_iff
  have hp := h.prevInUse_iff
  cases used with
  | true =>
    cases prev <;> simp_all [chunkInfo, h.1]
  | false =>
    have hword := hfoot rfl
    cases prev <;> simp_all [chunkInfo, h.1]

/-- The walk over a fenced tiling. -/
theorem loop_mapStep (h : Fenced m a pu cs e) (he : e + 16 ≤ 2 ^ 64)
    (hn : cs.length < n) (acc : List ChunkInfo) :
    loop (mapStep m e) n (a, acc) = some (acc ++ infoList a pu cs) := by
  induction cs generalizing a pu n acc with
  | nil =>
    obtain ⟨rfl, hhead⟩ := h
    obtain ⟨k, rfl⟩ : ∃ k, n = k + 1 := ⟨n - 1, by simp at hn; omega⟩
    refine loop_done ?_
    rw [mapStep, if_neg (Nat.lt_irrefl _), chunkInfo_header hhead fun hf => by simp at hf]
    rfl
  | cons c cs ih =>
    obtain ⟨k, rfl⟩ : ∃ k, n = k + 1 := ⟨n - 1, by simp at hn; omega⟩
    have hend := h.1.end_eq
    obtain ⟨hmin, -, hhead, hfree, hrest⟩ := fenced_cons.1 h
    simp only [span] at hend
    simp only [MIN_CHUNK] at hmin
    have hnext : wadd a c.size = a + c.size := wadd_of_lt (show a + c.size < 2 ^ 64 by omega)
    have hstep : mapStep m e (a, acc) = .next (a + c.size,
        acc ++ [⟨a, c.size, c.used, pu, if c.used then none else some c.size⟩]) := by
      rw [mapStep, if_pos (show a < e by omega), hhead.1, hnext,
        chunkInfo_header hhead fun hf => by rw [hnext]; exact (hfree hf).2]
    rw [loop_next hstep, ih hrest (by simp at hn; omega), infoList, append_assoc]
    rfl

theorem freeTotal_infoList (a : Nat) (pu : Bool) (cs : List Cell) :
    freeTotal (infoList a pu cs) = freeSpan cs := by
  induction cs generalizing a pu with
  | nil => rfl
  | cons c cs ih =>
    have htail := ih (a + c.size) c.used
    rw [freeTotal] at htail ⊢
    rw [infoList, map_cons, sum_cons, htail, freeSpan]

/-- The recorded addresses are those of the chunks and of the epilogue. -/
theorem mem_infoList {i : ChunkInfo} (h : i ∈ infoList a pu cs) :
    (∃ c, (i.addr, c) ∈ placed a cs) ∨ i.addr = a + span cs := by
  induction cs generalizing a pu with
  | nil =>
    rw [infoList, mem_singleton] at h
    subst h
    exact Or.inr rfl
  | cons c cs ih =>
    rcases mem_cons.1 h with rfl | h
    · exact Or.inl ⟨c, by simp [placed]⟩
    · rcases ih h with ⟨d, hd⟩ | hd
      · exact Or.inl ⟨d, by rw [placed]; exact mem_cons_of_mem _ hd⟩
      · exact Or.inr (by rw [hd, span]; omega)

/-! ## Well-formed segments -/

section Segments

variable {g : Segment} {segs : List Segment}
  {chunks : Segment → List Cell}

/-- The chunk map of a well-formed segment. -/
theorem SegmentInv.chunkMap_eq (h : SegmentInv m g cs) :
    chunkMap m g = some (infoList (g.base + 16) true cs) := by
  have hroom := h.room
  have hlt := h.end_lt
  rw [chunkMap, h.first_eq, h.epilogue_eq]
  exact loop_mapStep h.fenced (by omega) h.length_lt []

theorem Arena.freeChunkBytes_eq (h : Arena m segs chunks) :
    freeChunkBytes m segs = some (segs.map fun g => freeSpan (chunks g)).sum := by
  suffices hsuff : ∀ l, (∀ g ∈ l, g ∈ segs) →
      freeChunkBytes m l = some (l.map fun g => freeSpan (chunks g)).sum from
    hsuff segs fun _ hg => hg
  intro l hl
  induction l with
  | nil => rfl
  | cons g l ih =>
    have hmap := (h.seg g (hl g mem_cons_self)).chunkMap_eq
    have hrest := ih fun g' hg' => hl g' (mem_cons_of_mem _ hg')
    rw [freeChunkBytes, hmap, hrest, Option.bind_some, Option.map_some, freeTotal_infoList,
      map_cons, sum_cons]

/-! ## `check_invariants` -/

/-- The validation walk reaches the epilogue of a fenced tiling. -/
theorem loop_checkStep (h : Fenced m a pu cs e) (he : e + 16 ≤ 2 ^ 64)
    (hn : cs.length < n) : loop (HeapCore.checkStep m e) n a = some (some e) := by
  induction cs generalizing a pu n with
  | nil =>
    obtain ⟨rfl, -⟩ := h
    obtain ⟨k, rfl⟩ : ∃ k, n = k + 1 := ⟨n - 1, by simp at hn; omega⟩
    refine loop_done ?_
    rw [HeapCore.checkStep, if_pos (Nat.le_refl _)]
  | cons c cs ih =>
    obtain ⟨k, rfl⟩ : ∃ k, n = k + 1 := ⟨n - 1, by simp at hn; omega⟩
    have hend := h.1.end_eq
    have hcoal := h.1.coalesced
    obtain ⟨hmin, hmod, hhead, hfree, hrest⟩ := fenced_cons.1 h
    simp only [span] at hend
    have hnext := hrest.head
    have hnext_eq : wadd a c.size = a + c.size := wadd_of_lt (show a + c.size < 2 ^ 64 by omega)
    have hmin' := hmin
    simp only [MIN_CHUNK] at hmin'
    have hsane : ¬ (c.size < MIN_CHUNK ∨ c.size % CHUNK_ALIGN ≠ 0) := by
      rintro (h | h)
      · omega
      · exact h hmod
    -- what the header after `c` must say: its own bit after a free chunk, `PREV_IN_USE` always
    have hprev : flagsOf m (a + c.size) &&& PREV_IN_USE = 0 ↔ c.used = false := hnext.prevInUse_iff
    have hused : c.used = false → flagsOf m (a + c.size) &&& IN_USE ≠ 0 := by
      intro hf hzero
      have hnu := hnext.inUse_iff.1 hzero
      cases cs with
      | nil => simp [headUsed] at hnu
      | cons d ds =>
        have := hcoal.2.2.2.1 hnu
        simp [hf] at this
    have hstep : HeapCore.checkStep m e a = .next (a + c.size) := by
      simp only [HeapCore.checkStep, hhead.1, hnext_eq, if_neg (show ¬ e ≤ a by omega),
        if_neg hsane, if_neg (show ¬ e < a + c.size by omega)]
      cases hu : c.used with
      | true =>
        have hin : ¬ flagsOf m a &&& IN_USE = 0 := by
          rw [hhead.inUse_iff, hu]
          simp
        have hpn : ¬ flagsOf m (a + c.size) &&& PREV_IN_USE = 0 := by
          rw [hprev, hu]
          simp
        simp only [if_neg hin, if_neg hpn, ite_self]
      | false =>
        have hin : flagsOf m a &&& IN_USE = 0 := hhead.inUse_iff.2 hu
        have hpn : flagsOf m (a + c.size) &&& PREV_IN_USE = 0 := hprev.2 hu
        have hfoot : prevSizeOf m (a + c.size) = c.size :=
          prevSizeOf_of_word (hfree hu).2 hmod
        have hnu := hused hu
        simp only [if_pos hin, hfoot, ne_eq, not_true_eq_false, if_false, hpn, hnu, or_self,
          ite_self]
    rw [loop_next hstep]
    exact ih hrest (by simp at hn; omega)

/-- `check_invariants` accepts a well-formed segment. -/
theorem SegmentInv.checkSegment_eq (h : SegmentInv m g cs) :
    HeapCore.checkSegment m g = some true := by
  have hroom := h.room
  have hlt := h.end_lt
  have hwalk := loop_checkStep h.fenced (by omega) h.length_lt
  have hpro : ¬ (sizeOf m g.base ≠ PROLOGUE_SIZE ∨
      flagsOf m g.base &&& (IN_USE ||| PREV_IN_USE) ≠ (IN_USE ||| PREV_IN_USE)) := by
    rw [h.prologue.1, h.prologue.2]
    decide
  have hepi : ¬ (sizeOf m (g.endAddr - 16) ≠ EPILOGUE_SIZE ∨
      flagsOf m (g.endAddr - 16) &&& IN_USE = 0) := by
    have hhead := h.fenced.2
    rw [hhead.1, hhead.inUse_iff]
    simp
  rw [HeapCore.checkSegment]
  simp only [h.epilogue_eq, h.first_eq]
  rw [if_neg hpro, hwalk, Option.map_some]
  simp only [ne_eq, not_true_eq_false, if_false]
  rw [if_neg hepi]

theorem Arena.checkSegments_eq (h : Arena m segs chunks) :
    HeapCore.checkSegments m segs = some true := by
  suffices hsuff : ∀ l, (∀ g ∈ l, g ∈ segs) → HeapCore.checkSegments m l = some true from
    hsuff segs fun _ hg => hg
  intro l hl
  induction l with
  | nil => rfl
  | cons g l ih =>
    rw [HeapCore.checkSegments, (h.seg g (hl g mem_cons_self)).checkSegment_eq,
      Option.bind_some, if_pos rfl]
    exact ih fun g' hg' => hl g' (mem_cons_of_mem _ hg')

end Segments

end PlanckOS.Heap
