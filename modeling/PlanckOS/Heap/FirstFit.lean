import PlanckOS.Heap.Safety

/-!
# First fit

`alloc` takes the first free chunk that is large enough, and it fails only when there is no room:
no segment has a run of neighbouring free chunks with the bytes needed. The second half rests on
coalescing. The walk looks at one chunk at a time, so a run of two free chunks would be refused;
in a coalesced segment a run of free chunks is one chunk.

All notions here read the memory through the chunk map of a segment.
-/

set_option autoImplicit false

namespace PlanckOS.Heap

open Lib.Word Lib.ByteMemory Lib.Tiling
open List hiding span

/-! ## Free chunks in memory -/

/-- The chunks of a segment with their addresses, as its headers show them, the epilogue last. -/
def chunksOf (m : Mem) (g : Segment) : Option (List (Nat × Cell)) :=
  (chunkMap m g).map fun l => l.map fun i => (i.addr, ⟨i.size, i.inUse⟩)

/-- The segment contains a contiguous run of free chunks with at least `needed` bytes. -/
def FreeRun (m : Mem) (g : Segment) (needed : Nat) : Prop :=
  ∃ pre run post, chunksOf m g = some (pre ++ run ++ post) ∧ (∀ p ∈ run, p.2.used = false) ∧
    needed ≤ (run.map fun p => p.2.size).sum

/-- There is a free chunk of `sz ≥ needed` bytes at `x` in the segment. -/
def Fitting (m : Mem) (g : Segment) (needed x sz : Nat) : Prop :=
  (∃ l, chunksOf m g = some l ∧ (x, ⟨sz, false⟩) ∈ l) ∧ needed ≤ sz

/-- The chunk at `x` is the lowest one that fits, in the first segment that has one. -/
structure IsFirstFit (m : Mem) (segs : List Segment) (needed : Nat) (g : Segment) (x sz : Nat) :
    Prop where
  fitting : Fitting m g needed x sz
  lowest : ∀ y sz', Fitting m g needed y sz' → x ≤ y
  first : ∃ before after, segs = before ++ g :: after ∧
    ∀ g' ∈ before, ∀ y sz', ¬ Fitting m g' needed y sz'

/-- From `m` to `m'` the free chunk of `sz` bytes at `x` was taken: it is split when at least 32
bytes remain, and otherwise taken whole. The other chunks of the segment are as before. -/
def Taken (m m' : Mem) (g : Segment) (needed x sz : Nat) : Prop :=
  ∃ pre post, chunksOf m g = some (pre ++ (x, ⟨sz, false⟩) :: post) ∧ chunksOf m' g = some (pre ++
      (if 32 ≤ sz - needed then [(x, ⟨needed, true⟩), (x + needed, ⟨sz - needed, false⟩)]
        else [(x, ⟨sz, true⟩)]) ++ post)

theorem placed_of_infoList (a : Nat) (pu : Bool) (cs : List Cell) :
    ((infoList a pu cs).map fun i => (i.addr, (⟨i.size, i.inUse⟩ : Cell))) =
      placed a (cs ++ [⟨EPILOGUE_SIZE, true⟩]) := by
  induction cs generalizing a pu with
  | nil => rfl
  | cons c cs ih => rw [infoList, map_cons, ih, cons_append, placed]

section Segments

variable {m : Mem} {g : Segment} {cs : List Cell} {needed : Nat}

variable (h : SegmentInv m g cs)
include h

theorem SegmentInv.chunksOf_eq :
    chunksOf m g = some (placed (g.base + 16) (cs ++ [⟨EPILOGUE_SIZE, true⟩])) := by
  rw [chunksOf, h.chunkMap_eq, Option.map_some, placed_of_infoList]

theorem SegmentInv.fitting_iff {x sz : Nat} :
    Fitting m g needed x sz ↔ (x, ⟨sz, false⟩) ∈ placed (g.base + 16) cs ∧ needed ≤ sz := by
  simp [Fitting, h.chunksOf_eq, placed_append, placed]

/-- A run of free chunks with the bytes needed is one chunk that fits. -/
theorem SegmentInv.freeRun_iff (hpos : 0 < needed) : FreeRun m g needed ↔ ¬ NoFit needed cs := by
  constructor
  · rintro ⟨pre, run, post, hmap, hfree, hsum⟩ hno
    rw [h.chunksOf_eq, Option.some.injEq] at hmap
    -- forget the addresses: the run is a stretch of a coalesced tiling
    have hcells := congrArg (map Prod.snd) hmap
    rw [map_snd_placed, map_append, map_append] at hcells
    have hco : Coalesced true (cs ++ [⟨EPILOGUE_SIZE, true⟩]) :=
      h.coalesced.snoc_used (by decide) rfl
    rw [hcells] at hco
    have hone := hco.free_run fun c hc => by
      obtain ⟨p, hp, rfl⟩ := mem_map.1 hc
      exact hfree p hp
    cases run with
    | nil =>
      simp only [map_nil, sum_nil] at hsum
      omega
    | cons p run =>
      obtain rfl : run = [] := by simpa using hone
      have hpf := hfree p mem_cons_self
      have hmem : p.2 ∈ cs ++ [⟨EPILOGUE_SIZE, true⟩] := by
        rw [hcells]
        simp
      rcases mem_append.1 hmem with hmem | hmem
      · have hlt := hno p.2 hmem hpf
        simp only [map_cons, map_nil, sum_cons, sum_nil] at hsum
        omega
      · rw [mem_singleton] at hmem
        simp [hmem] at hpf
  · intro hfit
    simp only [NoFit, not_forall, Nat.not_lt] at hfit
    obtain ⟨c, hc, hfree, hle⟩ := hfit
    obtain ⟨pre, post, rfl⟩ := append_of_mem hc
    refine ⟨placed (g.base + 16) pre, [(g.base + 16 + span pre, c)],
      placed (g.base + 16 + span pre + c.size) (post ++ [⟨EPILOGUE_SIZE, true⟩]), ?_, ?_, ?_⟩
    · rw [h.chunksOf_eq, append_assoc, placed_append, cons_append, placed, append_assoc]
      rfl
    · simpa using hfree
    · simpa using hle

end Segments

section Arenas

variable {m m' : Mem} {segs : List Segment} {chunks : Segment → List Cell} {g : Segment}
  {needed sz : Nat} {pre post : List Cell}

theorem NoFit.not_fitting (h : Arena m segs chunks) (hg : g ∈ segs)
    (hno : NoFit needed (chunks g)) (x sz : Nat) : ¬ Fitting m g needed x sz := by
  intro hfit
  obtain ⟨hmem, hle⟩ := (h.seg g hg).fitting_iff.1 hfit
  have hlt := hno _ (mem_of_placed hmem) rfl
  simp only at hlt
  omega

variable (h : Arena m segs chunks) (hat : FirstFitAt segs chunks needed g pre sz post)
include h hat

/-- What the segment loop finds is the first fit as memory shows it. -/
theorem FirstFitAt.isFirstFit : IsFirstFit m segs needed g (g.base + 16 + span pre) sz := by
  have hs := h.seg g hat.mem
  refine ⟨hs.fitting_iff.2 ⟨mem_placed_iff.2 ⟨pre, post, hat.cut, rfl⟩, hat.fits⟩, ?_, ?_⟩
  · intro y sz' hy
    obtain ⟨hmem, hle⟩ := hs.fitting_iff.1 hy
    rw [hat.cut, placed_append] at hmem
    rcases mem_append.1 hmem with hmem | hmem
    · -- a fitting chunk in front of the one found
      have hlt := hat.lowest _ (mem_of_placed hmem) rfl
      simp only at hlt
      omega
    · exact (placed_le hmem).1
  · obtain ⟨before, after, rfl, hbefore⟩ := hat.first
    exact ⟨before, after, rfl, fun g' hg' =>
      (hbefore g' hg').not_fitting h (mem_append_left _ hg')⟩

/-- `carve` as memory shows it. -/
theorem FirstFitAt.taken (hs' : SegmentInv m' g (pre ++ carve sz needed ++ post)) :
    Taken m m' g needed (g.base + 16 + span pre) sz := by
  have hs := (h.seg g hat.mem).chunksOf_eq
  rw [hat.cut, append_assoc, placed_append, cons_append, placed] at hs
  refine ⟨_, _, hs, ?_⟩
  rw [hs'.chunksOf_eq, append_assoc, append_assoc, placed_append, placed_append,
    span_carve hat.fits, ← append_assoc]
  congr 3
  rw [carve, MIN_CHUNK]
  split <;> rfl

end Arenas

/-! ## `alloc` -/

variable {s : HeapSystem}

/-- **First fit is complete.** In every state reached and for every layout with an alignment up to
16, `alloc` fails exactly when no segment has a run of free chunks with the bytes needed, and then
only `oom_count` changes. Otherwise it returns the payload of the first fit, which is split exactly
when at least 32 bytes remain. -/
theorem alloc_first_fit (h : s.ReachableBelowTop) (layout : Layout)
    (halign : layout.align ≤ CHUNK_ALIGN) (needed : Nat)
    (hneeded : needed = max 32 ((max layout.size 1 + 16 + 15) / 16 * 16)) :
    ((∃ core' m', s.core.alloc s.mem layout = some (0, core', m')) ↔
      ∀ g ∈ s.core.segments, ¬ FreeRun s.mem g needed) ∧
    ((∀ g ∈ s.core.segments, ¬ FreeRun s.mem g needed) → s.core.alloc s.mem layout =
        some (0, { s.core with oomCount := wadd s.core.oomCount 1 }, s.mem)) ∧
    ((∃ g ∈ s.core.segments, FreeRun s.mem g needed) →
      ∃ g x sz core' m', IsFirstFit s.mem s.core.segments needed g x sz ∧
        s.core.alloc s.mem layout = some (x + 16, core', m') ∧
        Taken s.mem m' g needed x sz) := by
  obtain ⟨chunks, hinv⟩ := heapInv_of_reachable h
  have harena := hinv.arena
  have hsize : HeapCore.neededSize layout = some needed := by
    rw [neededSize_eq, hneeded, Nat.max_comm]
  have hpos : 0 < needed := by omega
  rcases harena.findChunk_spec needed with ⟨hnone, hno⟩ | ⟨g, pre, sz, post, hat, hfound⟩
  · have hrun : ∀ g ∈ s.core.segments, ¬ FreeRun s.mem g needed := fun g hg hrun =>
      ((harena.seg g hg).freeRun_iff hpos).1 hrun (hno g hg)
    have hnull := alloc_searched s.core (Nat.not_lt.2 halign) hsize hnone
    refine ⟨⟨fun _ => hrun, fun _ => ⟨_, _, hnull⟩⟩, fun _ => hnull, ?_⟩
    rintro ⟨g, hg, hfree⟩
    exact absurd hfree (hrun g hg)
  · obtain ⟨c, m', rfl, hres, hs', -⟩ :=
      alloc_carves s.core harena (Nat.not_lt.2 halign) hsize hat hfound
    have hrun : FreeRun s.mem g needed := by
      refine ((harena.seg g hat.mem).freeRun_iff hpos).2 fun hno => ?_
      have hlt := hno ⟨sz, false⟩ (by rw [hat.cut]; simp) rfl
      have hfits := hat.fits
      simp only at hlt
      omega
    refine ⟨⟨?_, fun hno => absurd hrun (hno g hat.mem)⟩, fun hno => absurd hrun (hno g hat.mem),
      fun _ => ⟨g, _, sz, _, m', hat.isFirstFit harena, hres, hat.taken harena hs'⟩⟩
    -- a payload address is not null
    rintro ⟨core', m'', hnull⟩
    rw [hres, Option.some.injEq, Prod.mk.injEq] at hnull
    omega

/-- 100 bytes in the ordinary run. -/
theorem alloc_first_fit_ordinary : ∃ s, zeroStart.run ordinaryOps = some s ∧
      ((∃ core' m', s.core.alloc s.mem (byteLayout 100) = some (0, core', m')) ↔
        ∀ g ∈ s.core.segments, ¬ FreeRun s.mem g 128) := by
  obtain ⟨s, hs, hreach⟩ := ordinaryOps_run
  exact ⟨s, hs, (alloc_first_fit hreach (byteLayout 100) (by decide) 128 rfl).1⟩

theorem eight_isPowerOfTwo : Nat.isPowerOfTwo 8 := ⟨3, rfl⟩

theorem lowerHalf_size_le : 2 ^ 63 - 16 + 8 ≤ 2 ^ 63 := by omega

theorem upperHalf_size_le : 2 ^ 63 - 64 + 8 ≤ 2 ^ 63 := by omega

/-- Half of the address space: a chunk of `2 ^ 63` bytes. -/
def lowerHalf : Layout where
  size := 2 ^ 63 - 16
  align := 8
  align_pow := eight_isPowerOfTwo
  size_le := lowerHalf_size_le

/-- What is left of the address space behind `lowerHalf`, its fences taken off. -/
def upperHalf : Layout where
  size := 2 ^ 63 - 64
  align := 8
  align_pow := eight_isPowerOfTwo
  size_le := upperHalf_size_le

/-- Five bytes at the top of the address space become a segment that covers everything from address
0 on; an ordinary region follows. Two blocks exhaust the first segment, and the client of the lower
one stores to its payload where the headers of the second segment lie: the chunk there becomes two
free chunks of 2048 and 2016 bytes. -/
def fragmentedOps : List HeapOp :=
  [.initRegion (2 ^ 64 - 6) (2 ^ 64 - 1), .initRegion 4096 8192, .alloc lowerHalf,
    .alloc upperHalf, .write 4120 0x02, .write 4121 0x08, .write 6168 0xE0, .write 6169 0x07]

/-- With a region in the top 80 bytes, `alloc` fails although there is a run of free chunks. -/
theorem free_run_refused : ∃ s core' m', zeroStart.run fragmentedOps = some s ∧ s.Reachable ∧
      s.core.alloc s.mem (byteLayout 3000) = some (0, core', m') ∧
      ∃ g ∈ s.core.segments, FreeRun s.mem g 3024 := by
  obtain ⟨s, hs, ⟨p, core', m'⟩, hres, hp, hmem, hmap⟩ : ∃ s, zeroStart.run fragmentedOps = some s ∧
      ∃ r, s.core.alloc s.mem (byteLayout 3000) = some r ∧ r.1 = 0 ∧
        ⟨4096, 8192⟩ ∈ s.core.segments ∧ chunksOf s.mem ⟨4096, 8192⟩ =
          some [(4112, ⟨2048, false⟩), (6160, ⟨2016, false⟩), (8176, ⟨16, true⟩)] := by
            decide +kernel
  subst hp
  refine ⟨s, core', m', hs, HeapSystem.reachable_of_run hs, hres,
    ⟨4096, 8192⟩, hmem, [], [(4112, ⟨2048, false⟩), (6160, ⟨2016, false⟩)],
    [(8176, ⟨16, true⟩)], hmap, by simp, by decide⟩

end PlanckOS.Heap
