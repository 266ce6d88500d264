import PlanckOS.Heap.ChunkMap
import PlanckOS.Heap.Invariant

/-!
# Safety of the heap

What the invariant gives the clients, for every run that keeps away from the top of the address
space: segments stay well formed and `check_invariants` accepts them, blocks are aligned, separate
and left alone by the allocator, and invalid frees are counted and change nothing.

A region in the last 80 bytes of the address space is a counterexample to each of these: its
rounded base plus 64 wraps around, `init_region` accepts it although it is tiny, and the segment
installed is not well formed, or covers memory that belongs to other segments.
-/

set_option autoImplicit false

namespace PlanckOS.Heap

open Lib.Word Lib.ByteMemory Lib.Tiling Lib.Transition
open List hiding span

variable {s : HeapSystem} {segs : List Segment} {chunks : Segment → List Cell}

/-! ## A run to look at -/

/-- A layout of `size` bytes with alignment 8. -/
def byteLayout (size : UInt32) : Layout where
  size := size.toNat
  align := 8
  align_pow := ⟨3, rfl⟩
  size_le := by
    have := size.toNat_lt
    omega

/-- Two blocks in one segment, the first one freed again. -/
def ordinaryOps : List HeapOp :=
  [.initRegion 4096 8192, .alloc (byteLayout 24), .alloc (byteLayout 40),
    .write 4128 7, .dealloc 4128]

theorem ordinaryOps_run : ∃ s, zeroStart.run ordinaryOps = some s ∧ s.ReachableBelowTop := by
  obtain ⟨s, hs⟩ : ∃ s, zeroStart.run ordinaryOps = some s := by decide +kernel
  refine ⟨s, hs, Reach.of_run (.init ⟨_, rfl⟩) (fun op hop t => ?_) hs⟩
  simp only [ordinaryOps, mem_cons, not_mem_nil, or_false] at hop
  rcases hop with rfl | rfl | rfl | rfl | rfl
  · exact Or.inr (by decide)
  all_goals trivial

/-! ## Structure -/

/-- **The segments stay well formed.** In every state reached, each segment is tiled by chunks
between intact fences, and `check_invariants` returns true. -/
theorem segments_wellFormed (h : s.ReachableBelowTop) :
    (∀ g ∈ s.core.segments, ∃ cs, SegmentInv s.mem g cs) ∧
      s.core.checkInvariants s.mem = some true := by
  obtain ⟨chunks, hinv⟩ := heapInv_of_reachable h
  exact ⟨fun g hg => ⟨chunks g, hinv.arena.seg g hg⟩, hinv.arena.checkSegments_eq⟩

theorem segments_wellFormed_ordinary : ∃ s, zeroStart.run ordinaryOps = some s ∧
      (∀ g ∈ s.core.segments, ∃ cs, SegmentInv s.mem g cs) ∧
      s.core.checkInvariants s.mem = some true := by
  obtain ⟨s, hs, hreach⟩ := ordinaryOps_run
  exact ⟨s, hs, segments_wellFormed hreach⟩

/-- The region `[2 ^ 64 - 32, 2 ^ 64 - 16)` is accepted and its segment is not well formed. -/
theorem tiny_region_at_top_accepted : ∃ s,
    zeroStart.run [.initRegion (2 ^ 64 - 32) (2 ^ 64 - 16)] = some s ∧
      s.Reachable ∧ s.core.checkInvariants s.mem = some false ∧
      ¬ ∀ g ∈ s.core.segments, ∃ cs, SegmentInv s.mem g cs := by
  obtain ⟨s, hs, hseg, hcheck⟩ : ∃ s,
      zeroStart.run [.initRegion (2 ^ 64 - 32) (2 ^ 64 - 16)] = some s ∧
      s.core.segments = [⟨2 ^ 64 - 32, 2 ^ 64 - 16⟩] ∧
      s.core.checkInvariants s.mem = some false := by decide +kernel
  refine ⟨s, hs, HeapSystem.reachable_of_run hs, hcheck, ?_⟩
  intro hall
  obtain ⟨cs, hcs⟩ := hall ⟨2 ^ 64 - 32, 2 ^ 64 - 16⟩ (by rw [hseg]; exact mem_cons_self)
  have hroom := hcs.room
  simp only at hroom
  omega

/-! ## Blocks -/

/-- Every header, the fences included, lies outside the part of a chunk behind its own header. -/
theorem Arena.header_apart {m : Mem} (h : Arena m segs chunks) {c : Nat} {d : Cell}
    (hd : PlacedIn segs chunks c d) {g : Segment} (hg : g ∈ segs) {x : Nat}
    (hx : x = g.base ∨ (∃ e, (x, e) ∈ placed (g.base + 16) (chunks g)) ∨ x = g.endAddr - 16) :
    x ≤ c ∨ c + d.size ≤ x := by
  -- the fences are at the edges of their segment, outside of all chunks
  have hfence (hx : x = g.base ∨ x = g.endAddr - 16) : x ≤ c ∨ c + d.size ≤ x := by
    obtain ⟨g', hg', hmem⟩ := hd
    have hfacts := h.placed_facts hg' hmem
    by_cases hgg : g = g'
    · subst hgg
      omega
    · have hroom := (h.seg g hg).room
      rcases h.apart_of_ne hg hg' hgg with h | h <;> omega
  rcases hx with hx | ⟨e, he⟩ | hx
  · exact hfence (.inl hx)
  · by_cases hne : (x, e) = (c, d)
    · exact Or.inl (Nat.le_of_eq (Prod.mk.inj hne).1)
    · rcases h.separate ⟨g, hg, he⟩ hd hne with hsep | hsep
      · exact Or.inl (by omega)
      · exact Or.inr hsep
  · exact hfence (.inr hx)

/-- **Blocks are separate.** In every state reached, a block returned by `alloc` is aligned, its
payload lies between the fences of one segment and meets neither the payload of another block nor
any header or `prev_size` word; and neither `alloc` nor `dealloc` changes a payload byte of a block
that stays in use. -/
theorem blocks_separate (h : s.ReachableBelowTop) :
    (∀ layout p core' m', s.core.alloc s.mem layout = some (p, core', m') → p ≠ 0 → p % 16 = 0 ∧
      (∃ g ∈ core'.segments, g.base + 16 ≤ p ∧ p + layout.size ≤ g.endAddr - 16) ∧
      (∀ b ∈ s.live, p + layout.size ≤ b.ptr ∨ b.ptr + b.layout.size ≤ p) ∧
      ∀ g ∈ core'.segments, ∃ l, chunkMap m' g = some l ∧
        ∀ x, x = g.base ∨ x ∈ l.map ChunkInfo.addr → x + 16 ≤ p ∨ p + layout.size ≤ x) ∧
    (∀ layout s', s.step (.alloc layout) = some s' → ∀ b ∈ s.live, b ∈ s'.live →
      ∀ y, b.ptr ≤ y → y < b.ptr + b.layout.size → s'.mem y = s.mem y) ∧
    ∀ p s', s.step (.dealloc p) = some s' → ∀ b ∈ s.live, b ∈ s'.live →
      ∀ y, b.ptr ≤ y → y < b.ptr + b.layout.size → s'.mem y = s.mem y := by
  obtain ⟨chunks, hinv⟩ := heapInv_of_reachable h
  refine ⟨fun layout p core' m' hres hp => ?_, fun layout s' hstep b hb _ y h1 h2 => ?_,
    fun p s' hstep b hb hb' y h1 h2 => ?_⟩
  · rcases hinv.alloc_cases layout with ⟨_, hnull, -⟩ |
      ⟨c, taken, core₁, m₁, chunks', hres₁, hseg, -, -, hplaced, hpay, -, hinv', -⟩
    · rw [hnull, Option.some.injEq, Prod.mk.injEq] at hres
      exact absurd hres.1.symm hp
    · rw [hres₁, Option.some.injEq, Prod.mk.injEq, Prod.mk.injEq] at hres
      obtain ⟨rfl, rfl, rfl⟩ := hres
      have harena := hinv'.arena
      simp only at harena
      rw [hseg] at harena ⊢
      obtain ⟨g, hg, hmem⟩ := hplaced
      obtain ⟨-, -, hc16, hlo, hhi, -, -⟩ := harena.placed_facts hg hmem
      simp only at hhi
      refine ⟨by omega, ⟨g, hg, by omega, by omega⟩, fun b hb => ?_, fun g' hg' => ?_⟩
      · -- the other blocks are held in the new state too, at other addresses
        have hnodup := hinv'.ledger.nodup
        obtain ⟨x, d, hx, hd, hused, hsize⟩ := hinv'.ledger.live_used b (mem_cons_of_mem _ hb)
        simp only [hseg] at hd
        have hne : (c, (⟨taken, true⟩ : Cell)) ≠ (x, d) := by
          intro heq
          refine (nodup_cons.1 hnodup).1 (mem_map.2 ⟨b, hb, ?_⟩)
          rw [hx, (Prod.mk.inj heq).1]
        rcases harena.separate ⟨g, hg, hmem⟩ hd hne with hsep | hsep
        · simp only at hsep
          omega
        · omega
      · -- the headers: the prologue, those of the tiling, and the epilogue
        refine ⟨_, (harena.seg g' hg').chunkMap_eq, fun x hx => ?_⟩
        have hspan := (harena.seg g' hg').span_eq
        have hcase : x = g'.base ∨ (∃ e, (x, e) ∈ placed (g'.base + 16) (chunks' g')) ∨
            x = g'.endAddr - 16 := by
          rcases hx with hx | hx
          · exact Or.inl hx
          · obtain ⟨i, hi, rfl⟩ := mem_map.1 hx
            rcases mem_infoList hi with hmem | hend
            · exact Or.inr (Or.inl hmem)
            · exact Or.inr (Or.inr (hend.trans hspan))
        have := harena.header_apart ⟨g, hg, hmem⟩ hg' hcase
        simp only at this
        omega
  · obtain ⟨x, d, hx, hd, hused, hsize⟩ := hinv.ledger.live_used b hb
    rcases hinv.alloc_cases layout with ⟨_, -, -, -, hres, -⟩ |
      ⟨_, _, _, _, _, -, -, -, -, -, -, hres, -, hframe⟩
    · rw [hres, Option.some.injEq] at hstep
      subst hstep
      rfl
    · rw [hres, Option.some.injEq] at hstep
      subst hstep
      exact hframe x d hd hused y (by omega) (by omega)
  · obtain ⟨x, d, hx, hd, hused, hsize⟩ := hinv.ledger.live_used b hb
    by_cases hheld : s.holds p = true
    · obtain ⟨c, _, _, _, _, hpc, -, -, -, -, -, hres, -, -, hframe⟩ := hinv.dealloc_cases hheld
      rw [hres, Option.some.injEq] at hstep
      subst hstep
      -- a block that stays in use is not the one freed
      have hne : x ≠ c := by
        have := (mem_filter.1 hb').2
        rw [bne_iff_ne] at this
        omega
      exact hframe x d hd hused hne y (by omega) (by omega)
    · rw [HeapSystem.step, if_neg hheld] at hstep
      simp at hstep

/-- A further allocation in the ordinary run. -/
theorem blocks_separate_ordinary : ∃ s p core' m', zeroStart.run ordinaryOps = some s ∧
      s.core.alloc s.mem (byteLayout 100) = some (p, core', m') ∧ p ≠ 0 ∧ p % 16 = 0 ∧
      ∀ b ∈ s.live, p + 100 ≤ b.ptr ∨ b.ptr + b.layout.size ≤ p := by
  obtain ⟨s, hs, hreach⟩ := ordinaryOps_run
  have hptr : (zeroStart.run ordinaryOps).bind (fun s =>
      (s.core.alloc s.mem (byteLayout 100)).map fun r => r.1) = some 4240 := by
    decide +kernel
  rw [hs, Option.bind_some] at hptr
  obtain ⟨⟨p, core', m'⟩, hres, hp⟩ := Option.map_eq_some_iff.1 hptr
  have hne : p ≠ 0 := by
    simp only at hp
    omega
  have hsafe := (blocks_separate hreach).1 _ p core' m' hres hne
  exact ⟨s, p, core', m', hs, hres, hne, hsafe.1, hsafe.2.2.1⟩

/-- An ordinary region, and five bytes at the top of the address space, installed as a segment that
covers everything from address 0 on; then a small block in the first segment. -/
def wrappedOps : List HeapOp :=
  [.initRegion 4096 8192, .initRegion (2 ^ 64 - 6) (2 ^ 64 - 1), .alloc (byteLayout 16)]

/-- With a region in the top 80 bytes, `alloc` returns a block over one that is in use. -/
theorem overlapping_blocks : ∃ s b p core' m',
    zeroStart.run wrappedOps = some s ∧ s.Reachable ∧ b ∈ s.live ∧
      s.core.alloc s.mem (byteLayout 8192) = some (p, core', m') ∧ p ≠ 0 ∧
      ¬ (p + 8192 ≤ b.ptr ∨ b.ptr + b.layout.size ≤ p) := by
  obtain ⟨s, hs, ⟨p, core', m'⟩, hres, hp, b, hb, hover⟩ : ∃ s, zeroStart.run wrappedOps = some s ∧
      ∃ r, s.core.alloc s.mem (byteLayout 8192) = some r ∧ r.1 ≠ 0 ∧
      ∃ b ∈ s.live, ¬ (r.1 + 8192 ≤ b.ptr ∨ b.ptr + b.layout.size ≤ r.1) := by decide +kernel
  exact ⟨s, b, p, core', m', hs, HeapSystem.reachable_of_run hs, hb, hres, hp,
    hover⟩

/-! ## Invalid frees -/

/-- A header outside every chunk area is found in no segment. -/
theorem Arena.find_none {m : Mem} (h : Arena m segs chunks) {c : Nat}
    (hout : ∀ g ∈ segs, c < g.base + 16 ∨ g.endAddr - 16 ≤ c) :
    segs.find? (HeapCore.inChunkArea · c) = none := by
  refine find?_eq_none.2 fun g hg => ?_
  have hcase := hout g hg
  rw [(h.seg g hg).inChunkArea_iff]
  omega

/-- **Invalid frees are detected and harmless.** In every state reached, freeing null, a misaligned
pointer, a pointer whose header lies outside every chunk area, or a block that was freed before and
whose header was not reused since, changes nothing but one of the two violation counters, which
grows by one. -/
theorem invalid_free_harmless (h : s.ReachableBelowTop) {p : Nat} (hp : p < 2 ^ 64)
    (hinvalid : p = 0 ∨ p % 16 ≠ 0 ∨
      (∀ g ∈ s.core.segments, p - 16 < g.base + 16 ∨ g.endAddr - 16 ≤ p - 16) ∨ Stale s.log p) :
    s.core.dealloc s.mem p = some ({ s.core with badFreeCount := s.core.badFreeCount + 1 }, s.mem) ∨
      s.core.dealloc s.mem p =
        some ({ s.core with doubleFreeCount := s.core.doubleFreeCount + 1 }, s.mem) := by
  obtain ⟨chunks, hinv⟩ := heapInv_of_reachable h
  obtain ⟨hbad, hdouble⟩ := hinv.no_violation
  have hbadFree : s.core.badFree = { s.core with badFreeCount := s.core.badFreeCount + 1 } := by
    rw [HeapCore.badFree, wadd_of_lt (by omega)]
  have hdoubleFree :
      s.core.doubleFree = { s.core with doubleFreeCount := s.core.doubleFreeCount + 1 } := by
    rw [HeapCore.doubleFree, wadd_of_lt (by omega)]
  rw [← hbadFree, ← hdoubleFree]
  by_cases hnull : p = 0
  · exact Or.inl (by rw [HeapCore.dealloc, if_pos hnull])
  by_cases halign : p % CHUNK_ALIGN = 0
  · simp only [CHUNK_ALIGN] at halign
    have hhead : wsub p HEADER_SIZE = p - 16 := wsub_of_le hp (show 16 ≤ p by omega)
    rcases hinvalid with h | h | hout | hstale
    · exact absurd h hnull
    · exact absurd halign h
    · left
      rw [HeapCore.dealloc, if_neg hnull, CHUNK_ALIGN, if_neg (not_not.2 halign)]
      simp only [hhead, hinv.arena.find_none hout]
    · -- a freed header lies in a free chunk with its in-use bit clear
      right
      obtain ⟨-, hquiet, x, c, ⟨g, hg, hmem⟩, -, hlo, hhi⟩ := hinv.ledger.stale p hstale
      have hfacts := hinv.arena.placed_facts hg hmem
      have hfind := hinv.arena.find_segment hg (show g.base + 16 ≤ p - 16 by omega) (by omega)
      rw [HeapCore.dealloc, if_neg hnull, CHUNK_ALIGN, if_neg (not_not.2 halign)]
      simp only [hhead, hfind]
      rw [if_pos hquiet]
  · exact Or.inl (by rw [HeapCore.dealloc, if_neg hnull, if_pos halign])

/-- The freed block of the ordinary run, freed again. -/
theorem invalid_free_harmless_ordinary : ∃ s,
    zeroStart.run ordinaryOps = some s ∧ (s.core.dealloc s.mem 4128 =
          some ({ s.core with badFreeCount := s.core.badFreeCount + 1 }, s.mem) ∨
        s.core.dealloc s.mem 4128 =
          some ({ s.core with doubleFreeCount := s.core.doubleFreeCount + 1 }, s.mem)) := by
  obtain ⟨s, hs, hreach⟩ := ordinaryOps_run
  obtain ⟨s', hs', hstale⟩ : ∃ s, zeroStart.run ordinaryOps = some s ∧
      Stale s.log 4128 := by decide +kernel
  obtain rfl := Option.some.inj (hs.symm.trans hs')
  exact ⟨s, hs, invalid_free_harmless hreach (by decide) (Or.inr (Or.inr (Or.inr hstale)))⟩

/-- The small block is freed, and the client of the large block over it writes into its own
payload, over the freed header. -/
def forgedOps : List HeapOp :=
  wrappedOps ++ [.alloc (byteLayout 8192), .dealloc 4128, .write 4120 0xe3]

/-- With a region in the top 80 bytes, a second free of the same block is accepted. -/
theorem forged_double_free : ∃ s core' m',
    zeroStart.run forgedOps = some s ∧ s.Reachable ∧ Stale s.log 4128 ∧
      s.core.dealloc s.mem 4128 = some (core', m') ∧ core'.freeBytes ≠ s.core.freeBytes ∧
      core'.badFreeCount = s.core.badFreeCount ∧
      core'.doubleFreeCount = s.core.doubleFreeCount := by
  obtain ⟨s, hs, hstale, ⟨core', m'⟩, hres, hcounts⟩ : ∃ s,
      zeroStart.run forgedOps = some s ∧ Stale s.log 4128 ∧
      ∃ r, s.core.dealloc s.mem 4128 = some r ∧ r.1.freeBytes ≠ s.core.freeBytes ∧
        r.1.badFreeCount = s.core.badFreeCount ∧
        r.1.doubleFreeCount = s.core.doubleFreeCount := by decide +kernel
  exact ⟨s, core', m', hs, HeapSystem.reachable_of_run hs, hstale, hres,
    hcounts⟩

end PlanckOS.Heap
