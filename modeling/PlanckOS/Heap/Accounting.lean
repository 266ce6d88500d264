import PlanckOS.Heap.Safety

/-!
# Counters, recovery, and the order of frees

`free_bytes` is the total size of the free chunks and `alloc_count` the number of blocks held, so
neither counter underflows, and when every block was freed each segment is one free chunk again.
Freeing a block right after it was allocated leaves no trace (`dealloc_undoes_alloc`).

Freeing a set of blocks gives the same chunk map in any order. The reason is canonicity of
coalesced tilings: the free chunks of a segment are the gaps between the used ones, and each free
removes exactly its own chunk from the used ones.
-/

set_option autoImplicit false

namespace PlanckOS.Heap

open Lib.ByteMemory Lib.Tiling Lib.Transition
open List hiding span

variable {s : HeapSystem} {chunks chunks₁ chunks₂ : Segment → List Cell} {g : Segment}
  {segs : List Segment}

/-! ## Accounting -/

/-- Without blocks every segment is one free chunk. -/
theorem HeapInv.single_chunk (h : HeapInv s chunks) (hlive : s.live = [])
    (hg : g ∈ s.core.segments) : chunks g = [⟨g.endAddr - g.base - 32, false⟩] := by
  have hs := h.arena.seg g hg
  have hroom := hs.room
  have hspan := hs.span_eq
  have hone := eq_single_of_no_used (a := g.base + 16) hs.coalesced (by omega) fun x c hc => by
    cases hu : c.used with
    | false => rfl
    | true =>
      obtain ⟨b, hb, -⟩ := h.ledger.used_live x c ⟨g, hg, hc⟩ hu
      rw [hlive] at hb
      simp at hb
  rw [hone]
  congr 2
  omega

/-- **Accounting.** In every state reached, `free_bytes` is the total size of the free chunks and
`alloc_count` the number of blocks held; an allocation takes the bytes of its chunk from
`free_bytes` and a free takes one from `alloc_count`, both without underflow; and when no block is
held, each segment is one free chunk and `free_bytes` is the sum of their sizes. -/
theorem counters_exact (h : s.ReachableBelowTop) :
    freeChunkBytes s.mem s.core.segments = some s.core.freeBytes ∧
    s.core.allocCount = s.live.length ∧
    (∀ layout p core' m', s.core.alloc s.mem layout = some (p, core', m') → p ≠ 0 →
      core'.freeBytes + sizeOf m' (p - 16) = s.core.freeBytes ∧
        core'.allocCount = s.core.allocCount + 1) ∧
    (∀ p core' m', s.holds p = true → s.core.dealloc s.mem p = some (core', m') →
      core'.allocCount + 1 = s.core.allocCount ∧
        core'.freeBytes = s.core.freeBytes + sizeOf s.mem (p - 16)) ∧
    (s.live = [] → (∀ g ∈ s.core.segments, chunkMap s.mem g = some
        [⟨g.base + 16, g.endAddr - g.base - 32, false, true, some (g.endAddr - g.base - 32)⟩,
          ⟨g.endAddr - 16, 16, true, false, none⟩]) ∧
      s.core.freeBytes = (s.core.segments.map fun g => g.endAddr - g.base - 32).sum) := by
  obtain ⟨chunks, hinv⟩ := heapInv_of_reachable h
  refine ⟨?_, hinv.count_eq, fun layout p core' m' hres hp => ?_,
    fun p core' m' hheld hres => ?_, fun hlive => ⟨fun g hg => ?_, ?_⟩⟩
  · rw [hinv.arena.freeChunkBytes_eq, hinv.free_eq]
  · rcases hinv.alloc_cases layout with ⟨_, hnull, -⟩ |
      ⟨c, taken, core₁, m₁, chunks', hres₁, hseg, hfree, hcount, ⟨g, hg, hmem⟩, -, -, hinv', -⟩
    · rw [hnull, Option.some.injEq, Prod.mk.injEq] at hres
      exact absurd hres.1.symm hp
    · rw [hres₁, Option.some.injEq, Prod.mk.injEq, Prod.mk.injEq] at hres
      obtain ⟨rfl, rfl, rfl⟩ := hres
      have hsize := (hinv'.arena.placed_facts (hseg ▸ hg) hmem).2.2.2.2.2.1
      simp only at hsize
      rw [Nat.add_sub_cancel, hsize]
      exact ⟨hfree, hcount⟩
  · obtain ⟨c, sz, core₁, m₁, _, rfl, ⟨g, hg, hmem⟩, hres₁, -, hfree, hcount, -⟩ :=
      hinv.dealloc_cases hheld
    rw [hres₁, Option.some.injEq, Prod.mk.injEq] at hres
    obtain ⟨rfl, rfl⟩ := hres
    have hsize := (hinv.arena.placed_facts hg hmem).2.2.2.2.2.1
    simp only at hsize
    rw [Nat.add_sub_cancel, hsize]
    exact ⟨hcount, hfree⟩
  · have hs := hinv.arena.seg g hg
    have hroom := hs.room
    have hend : g.base + 16 + (g.endAddr - g.base - 32) = g.endAddr - 16 := by omega
    rw [hs.chunkMap_eq, hinv.single_chunk hlive hg]
    simp [infoList, hend, EPILOGUE_SIZE]
  · rw [hinv.free_eq]
    refine congrArg sum (map_congr_left fun g hg => ?_)
    rw [hinv.single_chunk hlive hg]
    simp [freeSpan]

/-- The counters of the ordinary run. -/
theorem counters_exact_ordinary : ∃ s, zeroStart.run ordinaryOps = some s ∧
      freeChunkBytes s.mem s.core.segments = some s.core.freeBytes ∧
      s.core.allocCount = s.live.length := by
  obtain ⟨s, hs, hreach⟩ := ordinaryOps_run
  have hexact := counters_exact hreach
  exact ⟨s, hs, hexact.1, hexact.2.1⟩

/-- The tiny region at the top adds bytes to `free_bytes` that no chunk has. -/
theorem tiny_region_miscounted : ∃ s,
    zeroStart.run [.initRegion (2 ^ 64 - 32) (2 ^ 64 - 16)] = some s ∧
      s.Reachable ∧ s.live = [] ∧ freeChunkBytes s.mem s.core.segments = some 0 ∧
      s.core.freeBytes = 2 ^ 64 - 16 := by
  have hrun : (zeroStart.run [.initRegion (2 ^ 64 - 32) (2 ^ 64 - 16)]).map (fun s =>
        (s.live.length, freeChunkBytes s.mem s.core.segments, s.core.freeBytes))
        = some (0, some 0, 2 ^ 64 - 16) := by
    decide +kernel
  obtain ⟨s, hs, hval⟩ := Option.map_eq_some_iff.1 hrun
  simp only [Prod.mk.injEq] at hval
  exact ⟨s, hs, HeapSystem.reachable_of_run hs,
    length_eq_zero_iff.1 hval.1, hval.2.1, hval.2.2⟩

/-! ## Freeing what was just allocated -/

/-- **Freeing undoes allocating.** In every state reached, when `alloc` returns a block, freeing it
right after, whatever the client wrote into the payload of its chunk, restores the allocator state,
`free_bytes` and `alloc_count` included, and the chunk map of every segment. -/
theorem dealloc_undoes_alloc (h : s.ReachableBelowTop) {layout : Layout} {p : Nat}
    {core₁ : HeapCore} {m₁ m₂ : Mem}
    (halloc : s.core.alloc s.mem layout = some (p, core₁, m₁)) (hp : p ≠ 0)
    (hclient : ∀ y, y < p ∨ p - HEADER_SIZE + sizeOf m₁ (p - HEADER_SIZE) ≤ y → m₂ y = m₁ y) :
    p + layout.size ≤ p - HEADER_SIZE + sizeOf m₁ (p - HEADER_SIZE) ∧
      ∃ m₃, core₁.dealloc m₂ p = some (s.core, m₃) ∧
        ∀ g ∈ s.core.segments, ∃ l, chunkMap m₃ g = some l ∧ chunkMap s.mem g = some l := by
  obtain ⟨chunks, hinv⟩ := heapInv_of_reachable h
  have hfree : s.core.freeBytes < 2 ^ 64 := by
    rw [hinv.free_eq]
    exact hinv.arena.freeSum_lt
  have hcount : s.core.allocCount < 2 ^ 64 := by
    rw [hinv.count_eq]
    exact hinv.ledger.length_lt hinv.arena
  obtain ⟨hroom, m₃, hres, harena⟩ :=
    hinv.arena.dealloc_alloc s.core hfree hcount halloc hp hclient
  exact ⟨hroom, m₃, hres, fun g hg =>
    ⟨_, (harena.seg g hg).chunkMap_eq, (hinv.arena.seg g hg).chunkMap_eq⟩⟩

/-- A block allocated after the ordinary run, filled and freed. -/
theorem dealloc_undoes_alloc_ordinary : ∃ s p core₁ m₁ m₃, zeroStart.run ordinaryOps = some s ∧
      s.core.alloc s.mem (byteLayout 100) = some (p, core₁, m₁) ∧
      core₁.dealloc (writeByte m₁ p 7) p = some (s.core, m₃) := by
  obtain ⟨s, hs, hreach⟩ := ordinaryOps_run
  obtain ⟨s', hs', ⟨p, core₁, m₁⟩, hres, hp, hlt⟩ : ∃ s, zeroStart.run ordinaryOps = some s ∧
      ∃ r, s.core.alloc s.mem (byteLayout 100) = some r ∧ r.1 ≠ 0 ∧
        r.1 < r.1 - HEADER_SIZE + sizeOf r.2.2 (r.1 - HEADER_SIZE) := by decide +kernel
  obtain rfl := Option.some.inj (hs.symm.trans hs')
  have hclient : ∀ y, y < p ∨ p - HEADER_SIZE + sizeOf m₁ (p - HEADER_SIZE) ≤ y →
      writeByte m₁ p 7 y = m₁ y := by
    intro y hy
    refine writeByte_apply_of_ne _ _ ?_
    rintro rfl
    rcases hy with hy | hy
    · exact Nat.lt_irrefl _ hy
    · exact Nat.not_lt.2 hy hlt
  obtain ⟨-, m₃, hfree, -⟩ := dealloc_undoes_alloc hreach hres hp hclient
  exact ⟨s, p, core₁, m₁, m₃, hs, hres, hfree⟩

/-- With a region in the top 80 bytes, the payload of a block covers the first header of another
segment: when the client has written there, freeing the block does not restore the chunk map. -/
theorem client_write_survives_free : ∃ s p core₁ m₁ core₃ m₃, zeroStart.run
        [.initRegion 4096 8192, .initRegion (2 ^ 64 - 6) (2 ^ 64 - 1)] = some s ∧ s.Reachable ∧
      s.core.alloc s.mem (byteLayout 8192) = some (p, core₁, m₁) ∧ p ≠ 0 ∧
      p ≤ 4120 ∧ 4120 < p + 8192 ∧
      core₁.dealloc (writeByte m₁ 4120 0xe3) p = some (core₃, m₃) ∧
      ⟨4096, 8192⟩ ∈ s.core.segments ∧
      chunkMap m₃ ⟨4096, 8192⟩ ≠ chunkMap s.mem ⟨4096, 8192⟩ := by
  obtain ⟨s, hs, ⟨p, core₁, m₁⟩, hres, ⟨hp, h1, h2⟩, ⟨core₃, m₃⟩, hfree, hmap⟩ : ∃ s, zeroStart.run
        [.initRegion 4096 8192, .initRegion (2 ^ 64 - 6) (2 ^ 64 - 1)] = some s ∧
      ∃ r, s.core.alloc s.mem (byteLayout 8192) = some r ∧
        (r.1 ≠ 0 ∧ r.1 ≤ 4120 ∧ 4120 < r.1 + 8192) ∧
      ∃ t, r.2.1.dealloc (writeByte r.2.2 4120 0xe3) r.1 = some t ∧
        ⟨4096, 8192⟩ ∈ s.core.segments ∧
        chunkMap t.2 ⟨4096, 8192⟩ ≠ chunkMap s.mem ⟨4096, 8192⟩ := by decide +kernel
  exact ⟨s, p, core₁, m₁, core₃, m₃, hs, HeapSystem.reachable_of_run hs,
    hres, hp, h1, h2, hfree, hmap⟩

/-! ## The order of frees -/

/-- Free the blocks one after another. -/
def HeapCore.deallocAll (h : HeapCore) (m : Mem) : List Nat → Option (HeapCore × Mem)
  | [] => some (h, m)
  | p :: ps => (h.dealloc m p).bind fun r => HeapCore.deallocAll r.1 r.2 ps

/-- **A run of frees.** Freeing different blocks that are held returns, removes exactly their chunks
from the used ones, and moves only the two counters. -/
theorem HeapInv.deallocAll {ps : List Nat} (h : HeapInv s chunks) (hnodup : ps.Nodup)
    (hheld : ∀ p ∈ ps, s.holds p = true) :
    ∃ s' chunks', s.core.deallocAll s.mem ps = some (s'.core, s'.mem) ∧ HeapInv s' chunks' ∧
      s'.core = { s.core with
        freeBytes := s'.core.freeBytes
        allocCount := s'.core.allocCount } ∧
      s'.core.allocCount + ps.length = s.core.allocCount ∧
      ∀ x d, d.used = true → (PlacedIn s.core.segments chunks' x d ↔
        PlacedIn s.core.segments chunks x d ∧ x + 16 ∉ ps) := by
  induction ps generalizing s chunks with
  | nil => exact ⟨s, chunks, rfl, h, rfl, rfl, fun x d _ => by simp⟩
  | cons p ps ih =>
    obtain ⟨hp, hnodup'⟩ := nodup_cons.1 hnodup
    obtain ⟨c, sz, core', m', chunks₁, rfl, -, hres, hcore, -, hcount, -, hinv, hiff, -⟩ :=
      h.dealloc_cases (hheld p mem_cons_self)
    -- the blocks still to be freed are held in the state after this one
    obtain ⟨s', chunks', hres', hinv', hcore', hcount', hiff'⟩ := ih hinv hnodup' fun q hq => by
      obtain ⟨b, hb, hbq⟩ := any_eq_true.1 (hheld q (mem_cons_of_mem _ hq))
      refine any_eq_true.2 ⟨b, mem_filter.2 ⟨hb, bne_iff_ne.2 fun hbp => hp ?_⟩, hbq⟩
      rw [← hbp, beq_iff_eq.1 hbq]
      exact hq
    have hseg : core'.segments = s.core.segments := by rw [hcore]
    simp only at hres' hcore' hcount' hiff'
    rw [hseg] at hiff'
    refine ⟨s', chunks', ?_, hinv', ?_, ?_, fun x d hu => ?_⟩
    · rw [HeapCore.deallocAll, hres, Option.bind_some]
      exact hres'
    · rw [hcore', hcore]
    · rw [length_cons]
      omega
    · rw [hiff' x d hu, hiff x d hu, mem_cons, not_or, and_assoc]
      have : x ≠ c ↔ x + 16 ≠ c + 16 := by omega
      rw [this]

/-- A chunk placed in one arena over the same segments is in the same segment in another. -/
theorem placed_of_placedIn {m₁ m₂ : Mem} (h₁ : Arena m₁ segs chunks₁) (h₂ : Arena m₂ segs chunks₂)
    (hg : g ∈ segs) {x : Nat} {c d : Cell} (hx : (x, c) ∈ placed (g.base + 16) (chunks₁ g))
    (hd : PlacedIn segs chunks₂ x d) : (x, d) ∈ placed (g.base + 16) (chunks₂ g) := by
  obtain ⟨g', hg', hmem⟩ := hd
  by_cases hgg : g = g'
  · subst hgg
    exact hmem
  · have hfx := h₁.placed_facts hg hx
    have hfy := h₂.placed_facts hg' hmem
    rcases h₁.apart_of_ne hg hg' hgg with h | h <;> omega

/-- Arenas over the same segments with the same used chunks have the same chunks. -/
theorem chunks_eq_of_used {m₁ m₂ : Mem} (h₁ : Arena m₁ segs chunks₁) (h₂ : Arena m₂ segs chunks₂)
    (hused : ∀ x d, d.used = true → (PlacedIn segs chunks₁ x d ↔ PlacedIn segs chunks₂ x d))
    (hg : g ∈ segs) : chunks₁ g = chunks₂ g := by
  have hs₁ := (h₁.seg g hg).span_eq
  have hs₂ := (h₂.seg g hg).span_eq
  refine eq_of_used_eq (a := g.base + 16) (h₁.seg g hg).coalesced (h₂.seg g hg).coalesced
    (by omega) ?_ ?_
  · intro x d hu hmem
    exact placed_of_placedIn h₁ h₂ hg hmem ((hused x d hu).1 ⟨g, hg, hmem⟩)
  · intro x d hu hmem
    exact placed_of_placedIn h₂ h₁ hg hmem ((hused x d hu).2 ⟨g, hg, hmem⟩)

/-- **The order of frees does not matter.** In every state reached, freeing the same blocks in two
orders gives the same allocator state, the same chunk map in every segment, and no violation. -/
theorem free_order_irrelevant (h : s.ReachableBelowTop) {ps qs : List Nat} (hnodup : ps.Nodup)
    (hheld : ∀ p ∈ ps, s.holds p = true) (hperm : ps.Perm qs) :
    ∃ core' m₁ m₂, s.core.deallocAll s.mem ps = some (core', m₁) ∧
      s.core.deallocAll s.mem qs = some (core', m₂) ∧
      core'.segments = s.core.segments ∧
      core'.badFreeCount = s.core.badFreeCount ∧ core'.doubleFreeCount = s.core.doubleFreeCount ∧
      ∀ g ∈ s.core.segments, ∃ l, chunkMap m₁ g = some l ∧ chunkMap m₂ g = some l := by
  obtain ⟨chunks, hinv⟩ := heapInv_of_reachable h
  obtain ⟨s₁, chunks₁, hres₁, hinv₁, hcore₁, hcount₁, hiff₁⟩ := hinv.deallocAll hnodup hheld
  obtain ⟨s₂, chunks₂, hres₂, hinv₂, hcore₂, hcount₂, hiff₂⟩ :=
    hinv.deallocAll (hperm.nodup_iff.1 hnodup) fun q hq => hheld q (hperm.mem_iff.2 hq)
  have hseg₁ : s₁.core.segments = s.core.segments := by rw [hcore₁]
  have hseg₂ : s₂.core.segments = s.core.segments := by rw [hcore₂]
  have harena₁ := hinv₁.arena
  have harena₂ := hinv₂.arena
  rw [hseg₁] at harena₁
  rw [hseg₂] at harena₂
  have hsame : ∀ g ∈ s.core.segments, chunks₁ g = chunks₂ g := fun g hg =>
    chunks_eq_of_used harena₁ harena₂ (fun x d hu => by
      rw [hiff₁ x d hu, hiff₂ x d hu, hperm.mem_iff]) hg
  have hfree : s₁.core.freeBytes = s₂.core.freeBytes := by
    rw [hinv₁.free_eq, hinv₂.free_eq, hseg₁, hseg₂]
    exact congrArg sum (map_congr_left fun g hg => by rw [hsame g hg])
  have hlen := hperm.length_eq
  have hcore : s₂.core = s₁.core := by
    rw [hcore₁, hcore₂, hfree, show s₁.core.allocCount = s₂.core.allocCount by omega]
  refine ⟨s₁.core, s₁.mem, s₂.mem, hres₁, by rw [hres₂, hcore], hseg₁, by rw [hcore₁],
    by rw [hcore₁], fun g hg => ⟨_, (harena₁.seg g hg).chunkMap_eq, ?_⟩⟩
  rw [hsame g hg]
  exact (harena₂.seg g hg).chunkMap_eq

/-- Three neighbouring blocks. -/
def threeBlockOps : List HeapOp :=
  [.initRegion 4096 8192, .alloc (byteLayout 24), .alloc (byteLayout 40), .alloc (byteLayout 8)]

theorem threeBlockOps_run : ∃ s, zeroStart.run threeBlockOps = some s ∧
    s.ReachableBelowTop ∧ ∀ p ∈ [4128, 4176, 4240], s.holds p = true := by
  obtain ⟨s, hs, hheld⟩ : ∃ s, zeroStart.run threeBlockOps = some s ∧
      ∀ p ∈ [4128, 4176, 4240], s.holds p = true := by decide +kernel
  refine ⟨s, hs, Reach.of_run (.init ⟨_, rfl⟩) (fun op hop t => ?_) hs, hheld⟩
  simp only [threeBlockOps, mem_cons, not_mem_nil, or_false] at hop
  rcases hop with rfl | rfl | rfl | rfl
  · exact Or.inr (by decide)
  all_goals trivial

/-- The three blocks, freed forwards and from the middle. -/
theorem free_order_irrelevant_three : ∃ s core' m₁ m₂, zeroStart.run threeBlockOps = some s ∧
      s.core.deallocAll s.mem [4128, 4176, 4240] = some (core', m₁) ∧
      s.core.deallocAll s.mem [4176, 4128, 4240] = some (core', m₂) := by
  obtain ⟨s, hs, hreach, hheld⟩ := threeBlockOps_run
  obtain ⟨core', m₁, m₂, h₁, h₂, -⟩ :=
    free_order_irrelevant hreach (by decide) hheld (List.Perm.swap 4176 4128 [4240])
  exact ⟨s, core', m₁, m₂, hs, h₁, h₂⟩

/-- The large block's remainder is written over the header of the small block. -/
def clobberedOps : List HeapOp := wrappedOps ++ [.alloc (byteLayout 4080)]

/-- With a region in the top 80 bytes, freeing one block that is held raises
`double_free_count`. -/
theorem live_block_reported_free : ∃ s core' m', zeroStart.run clobberedOps = some s ∧ s.Reachable ∧
      s.holds 4128 = true ∧ s.core.deallocAll s.mem [4128] = some (core', m') ∧
      core'.doubleFreeCount = s.core.doubleFreeCount + 1 := by
  obtain ⟨s, hs, hheld, ⟨core', m'⟩, hres, hcount⟩ : ∃ s,
      zeroStart.run clobberedOps = some s ∧ s.holds 4128 = true ∧
      ∃ r, s.core.deallocAll s.mem [4128] = some r ∧
        r.1.doubleFreeCount = s.core.doubleFreeCount + 1 := by decide +kernel
  exact ⟨s, core', m', hs, HeapSystem.reachable_of_run hs, hheld, hres,
    hcount⟩

end PlanckOS.Heap
