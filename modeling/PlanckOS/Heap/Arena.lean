import PlanckOS.Heap.Alloc
import PlanckOS.Heap.Dealloc

/-!
# Several segments in one memory

An `Arena` is a list of segments that lie apart from each other, each of them fenced and tiled by
the chunks `chunks g`. `PlacedIn segs chunks x c` says that `c` is a chunk at the address `x` of
one of them. The operations replace a stretch of chunks of one segment by another stretch of the
same length (`Arena.replace`, `Arena.placed_swap`); `alloc_spec` and `dealloc_spec` say which.
-/

set_option autoImplicit false

namespace PlanckOS.Heap

open Lib.Word Lib.ByteMemory Lib.Tiling
open List hiding span

variable {cs pre post : List Cell} {m m' : Mem} {c x y sz needed : Nat} {g : Segment}

/-! ## Segments -/

/-- The segment `g` of the memory `m` is well formed and tiled by `cs`. -/
structure SegmentInv (m : Mem) (g : Segment) (cs : List Cell) : Prop where
  base_mod : g.base % 16 = 0
  end_mod : g.endAddr % 16 = 0
  room : g.base + 64 ≤ g.endAddr
  end_lt : g.endAddr < 2 ^ 64
  prologue : Header m g.base PROLOGUE_SIZE true true
  fenced : Fenced m (g.base + 16) true cs (g.endAddr - 16)

/-- The segments have no byte in common. -/
def Segment.Apart (g g' : Segment) : Prop := g.endAddr ≤ g'.base ∨ g'.endAddr ≤ g.base

instance : Std.Symm Segment.Apart := ⟨fun _ _ => Or.symm⟩

theorem SegmentInv.congr (h : SegmentInv m g cs)
    (hag : AgreeOn m m' (g.base + 8) g.endAddr) : SegmentInv m' g cs := by
  have hroom := h.room
  have hlt := h.end_lt
  exact ⟨h.base_mod, h.end_mod, hroom, hlt,
    h.prologue.congr (by omega) fun x h1 h2 => hag x h1 (by omega),
    h.fenced.congr (by omega) fun x h1 h2 => hag x (by omega) (by omega)⟩

theorem SegmentInv.span_eq (h : SegmentInv m g cs) : g.base + 16 + span cs = g.endAddr - 16 :=
  h.fenced.1.end_eq.symm

theorem SegmentInv.coalesced (h : SegmentInv m g cs) : Coalesced true cs :=
  h.fenced.1.coalesced

theorem SegmentInv.first_eq (h : SegmentInv m g cs) : wadd g.base PROLOGUE_SIZE = g.base + 16 := by
  have hroom := h.room
  have hlt := h.end_lt
  exact wadd_of_lt (show g.base + 16 < 2 ^ 64 by omega)

theorem SegmentInv.epilogue_eq (h : SegmentInv m g cs) :
    wsub g.endAddr EPILOGUE_SIZE = g.endAddr - 16 := by
  have hroom := h.room
  exact wsub_of_le h.end_lt (show 16 ≤ g.endAddr by omega)

/-- A walk visits fewer chunks than the bound on rounds. -/
theorem SegmentInv.length_lt (h : SegmentInv m g cs) : cs.length < WALK_BOUND := by
  have hlen := h.coalesced.length_le
  have hsp := h.span_eq
  have hlt := h.end_lt
  rw [walkBound_eq]
  omega

theorem SegmentInv.inChunkArea_iff (h : SegmentInv m g cs) :
    HeapCore.inChunkArea g c = true ↔ g.base + 16 ≤ c ∧ c < g.endAddr - 16 := by
  rw [HeapCore.inChunkArea, h.first_eq, h.epilogue_eq, Bool.and_eq_true, decide_eq_true_eq,
    decide_eq_true_eq]

/-- A segment of an arena keeps its prologue when only the stretch behind it changes. -/
theorem SegmentInv.retile {cs' : List Cell} (h : SegmentInv m g cs)
    (hf : Fenced m' (g.base + 16) true cs' (g.endAddr - 16))
    (hag : ∀ x, x < g.base + 16 → m' x = m x) : SegmentInv m' g cs' := by
  have hroom := h.room
  have hlt := h.end_lt
  exact ⟨h.base_mod, h.end_mod, hroom, hlt,
    h.prologue.congr (by omega) fun x _ h2 => hag x (by omega), hf⟩

/-! ## Arenas -/

/-- Well-formed segments that lie apart. -/
structure Arena (m : Mem) (segs : List Segment) (chunks : Segment → List Cell) : Prop where
  seg : ∀ g ∈ segs, SegmentInv m g (chunks g)
  apart : segs.Pairwise Segment.Apart

/-- `c` is the chunk at address `x` of one of the segments. -/
def PlacedIn (segs : List Segment) (chunks : Segment → List Cell) (x : Nat) (c : Cell) : Prop :=
  ∃ g ∈ segs, (x, c) ∈ placed (g.base + 16) (chunks g)

section Arena

variable {segs : List Segment} {chunks chunks' : Segment → List Cell} {g : Segment}
  {c d : Cell} {layout : Layout}

section

variable (h : Arena m segs chunks)
include h

theorem Arena.apart_of_ne {g g' : Segment} (hg : g ∈ segs) (hg' : g' ∈ segs) (hne : g ≠ g') :
    g.Apart g' :=
  h.apart.forall hg hg' hne

theorem Arena.nodup : segs.Nodup := by
  refine (pairwise_iff_forall_sublist.2 fun {a b} hsub hab => ?_)
  subst hab
  have hmem : a ∈ segs := hsub.subset (mem_cons_self ..)
  have hroom := (h.seg a hmem).room
  rcases pairwise_iff_forall_sublist.1 h.apart hsub with h | h <;> omega

/-- What is known of a placed chunk. -/
theorem Arena.placed_facts (hg : g ∈ segs) (hx : (x, c) ∈ placed (g.base + 16) (chunks g)) :
    32 ≤ c.size ∧ c.size % 16 = 0 ∧ x % 16 = 0 ∧ g.base + 16 ≤ x ∧ x + c.size ≤ g.endAddr - 16 ∧
      sizeOf m x = c.size ∧ (flagsOf m x &&& IN_USE = 0 ↔ c.used = false) := by
  have hs := h.seg g hg
  obtain ⟨h1, h2, h3, h4, h5, h6, h7⟩ := hs.fenced.1.placed_facts hx
  have hb := hs.base_mod
  exact ⟨h1, h2, by omega, h3, h5, h6, h7⟩

/-- Different chunks do not overlap. -/
theorem Arena.separate (hx : PlacedIn segs chunks x c) (hy : PlacedIn segs chunks y d)
    (hne : (x, c) ≠ (y, d)) :
    x + c.size ≤ y ∨ y + d.size ≤ x := by
  obtain ⟨g, hg, hx⟩ := hx
  obtain ⟨g', hg', hy⟩ := hy
  by_cases hgg : g = g'
  · subst hgg
    exact placed_disjoint hx hy hne
  · have hfx := h.placed_facts hg hx
    have hfy := h.placed_facts hg' hy
    rcases h.apart_of_ne hg hg' hgg with h | h <;> omega

theorem Arena.size_pos (hx : PlacedIn segs chunks x c) : 32 ≤ c.size := by
  obtain ⟨g, hg, hx⟩ := hx
  exact (h.placed_facts hg hx).1

/-- One address carries one chunk. -/
theorem Arena.placed_inj (hc : PlacedIn segs chunks x c) (hd : PlacedIn segs chunks x d) :
    c = d := by
  by_contra hne
  have hpc := h.size_pos hc
  have hpd := h.size_pos hd
  rcases h.separate hc hd (fun e => hne (Prod.mk.inj e).2) with h | h <;> omega

/-- Free chunks are not neighbours, also not across segments. -/
theorem Arena.not_adjacent (hx : PlacedIn segs chunks x c)
    (hy : PlacedIn segs chunks y d) (hc : c.used = false) (hd : d.used = false) :
    x + c.size ≠ y := by
  obtain ⟨g, hg, hx⟩ := hx
  obtain ⟨g', hg', hy⟩ := hy
  by_cases hgg : g = g'
  · subst hgg
    exact (h.seg g hg).coalesced.not_adjacent hx hy hc hd
  · have hfx := h.placed_facts hg hx
    have hfy := h.placed_facts hg' hy
    rcases h.apart_of_ne hg hg' hgg with h | h <;> omega

/-- The segment search of `dealloc` finds the segment a header lies in. -/
theorem Arena.find_segment (hg : g ∈ segs) {c : Nat} (hlo : g.base + 16 ≤ c)
    (hhi : c < g.endAddr - 16) :
    segs.find? (HeapCore.inChunkArea · c) = some g := by
  have hmine := (h.seg g hg).inChunkArea_iff.2 ⟨hlo, hhi⟩
  cases hfind : segs.find? (HeapCore.inChunkArea · c) with
  | none => exact absurd hmine (find?_eq_none.1 hfind g hg)
  | some g' =>
    have hin := find?_some hfind
    have hmem := mem_of_find?_eq_some hfind
    have hg' := (h.seg g' hmem).inChunkArea_iff.1 hin
    by_contra hne
    have hne' : g ≠ g' := fun e => hne (e ▸ rfl)
    rcases h.apart_of_ne hg hmem hne' with h | h <;> omega

/-- An arena whose segment `g` is tiled anew, the rest of the memory being unchanged. -/
theorem Arena.replace (hg : g ∈ segs) (hs : SegmentInv m' g cs)
    (hag : ∀ x, x < g.base + 8 ∨ g.endAddr ≤ x → m' x = m x) :
    Arena m' segs (Function.update chunks g cs) := by
  refine ⟨fun g' hg' => ?_, h.apart⟩
  by_cases hgg : g' = g
  · subst hgg
    rw [Function.update_self]
    exact hs
  · rw [Function.update_of_ne hgg]
    refine (h.seg g' hg').congr fun x h1 h2 => hag x ?_
    rcases h.apart_of_ne hg' hg hgg with h | h <;> omega

/-- Chunks outside a replaced stretch stay. -/
theorem Arena.placed_swap (hg : g ∈ segs) {mid mid' : List Cell}
    (hcs : chunks g = pre ++ mid ++ post) (hcs' : chunks' g = pre ++ mid' ++ post)
    (hother : ∀ g', g' ≠ g → chunks' g' = chunks g') (hspan : span mid' = span mid)
    (hx : PlacedIn segs chunks x c) :
    (x, c) ∈ placed (g.base + 16 + span pre) mid ∨ PlacedIn segs chunks' x c ∧
        (x + c.size ≤ g.base + 16 + span pre ∨ g.base + 16 + span pre + span mid ≤ x) := by
  obtain ⟨g', hg', hmem⟩ := hx
  by_cases hgg : g' = g
  · subst hgg
    rw [hcs, placed_append, placed_append, mem_append, mem_append] at hmem
    have hnew : placed (g'.base + 16) (chunks' g') = (placed (g'.base + 16) pre ++
        placed (g'.base + 16 + span pre) mid') ++
        placed (g'.base + 16 + span (pre ++ mid)) post := by
      rw [hcs', placed_append, placed_append, span_append, span_append, hspan]
    rcases hmem with (hmem | hmem) | hmem
    · refine Or.inr ⟨⟨g', hg', ?_⟩, Or.inl (placed_le hmem).2⟩
      rw [hnew]
      exact mem_append_left _ (mem_append_left _ hmem)
    · exact Or.inl hmem
    · refine Or.inr ⟨⟨g', hg', ?_⟩, Or.inr ?_⟩
      · rw [hnew]
        exact mem_append_right _ hmem
      · have := (placed_le hmem).1
        rw [span_append] at this
        omega
  · refine Or.inr ⟨⟨g', hg', by rw [hother g' hgg]; exact hmem⟩, ?_⟩
    have hfx := h.placed_facts hg' hmem
    have hsp := (h.seg g hg).span_eq
    have hroom := (h.seg g hg).room
    rw [hcs, span_append, span_append] at hsp
    rcases h.apart_of_ne hg' hg hgg with h | h <;> omega

/-- Bytes behind the header of a used chunk are the client's: the arena does not depend on them. -/
theorem Arena.payload (hx : PlacedIn segs chunks x ⟨sz, true⟩)
    (hag : ∀ y, y < x + 16 ∨ x + sz ≤ y → m' y = m y) : Arena m' segs chunks := by
  obtain ⟨g, hg, hmem⟩ := hx
  have hs := h.seg g hg
  have hfacts := h.placed_facts hg hmem
  have hlt := hs.end_lt
  obtain ⟨pre, post, hcs, hxp⟩ := mem_placed_iff.1 hmem
  simp only at hfacts
  have hf := hs.fenced
  rw [hcs] at hf
  have hf' := hf.payload (by omega) fun y hy => hag y (by omega)
  rw [← hcs] at hf'
  have hrep := h.replace hg (hs.retile hf' fun y hy => hag y (by omega))
    fun y hy => hag y (by omega)
  rwa [Function.update_eq_self] at hrep

/-! ## `alloc` on an arena -/

theorem Arena.findFit_eq (hg : g ∈ segs) (needed : Nat) :
    HeapCore.findFit m needed g = some (firstFit needed (g.base + 16) (chunks g)) := by
  have hs := h.seg g hg
  have hroom := hs.room
  have hlt := hs.end_lt
  rw [HeapCore.findFit, hs.first_eq, hs.epilogue_eq]
  exact loop_fitStep hs.fenced (by omega) hs.length_lt

/-- No free chunk of the segment has `needed` bytes. -/
def NoFit (needed : Nat) (cs : List Cell) : Prop := ∀ c ∈ cs, c.used = false → c.size < needed

/-- The free chunk of `sz` bytes behind `pre` in the segment `g` is the first fit: it is large
enough, and neither `pre` nor a segment before `g` has another one. -/
structure FirstFitAt (segs : List Segment) (chunks : Segment → List Cell) (needed : Nat)
    (g : Segment) (pre : List Cell) (sz : Nat) (post : List Cell) : Prop where
  cut : chunks g = pre ++ ⟨sz, false⟩ :: post
  fits : needed ≤ sz
  lowest : NoFit needed pre
  first : ∃ before after, segs = before ++ g :: after ∧ ∀ g' ∈ before, NoFit needed (chunks g')

omit h in
theorem FirstFitAt.mem (h : FirstFitAt segs chunks needed g pre sz post) : g ∈ segs := by
  obtain ⟨before, after, rfl, -⟩ := h.first
  simp

/-- The segment loop of `alloc` returns the first fit, or nothing when there is none. -/
theorem Arena.findChunk_spec (needed : Nat) :
    (HeapCore.findChunk m needed segs = some none ∧ ∀ g ∈ segs, NoFit needed (chunks g)) ∨
      ∃ g pre sz post, FirstFitAt segs chunks needed g pre sz post ∧
        HeapCore.findChunk m needed segs = some (some (g.base + 16 + span pre)) := by
  -- the loop runs over a suffix of the segments of the arena
  suffices hsuff : ∀ l, (∀ g ∈ l, g ∈ segs) →
      (HeapCore.findChunk m needed l = some none ∧ ∀ g ∈ l, NoFit needed (chunks g)) ∨
      ∃ g pre sz post, FirstFitAt l chunks needed g pre sz post ∧
        HeapCore.findChunk m needed l = some (some (g.base + 16 + span pre)) from
    hsuff segs fun _ hg => hg
  intro l hl
  induction l with
  | nil => exact Or.inl ⟨rfl, by simp⟩
  | cons g l ih =>
    have hfit := h.findFit_eq (hl g mem_cons_self) needed
    cases hff : firstFit needed (g.base + 16) (chunks g) with
    | some x =>
      obtain ⟨pre, c, post, hcs, rfl, hfree, hle, hpre⟩ := firstFit_eq_some hff
      obtain ⟨sz, used⟩ := c
      simp only at hfree hle
      subst hfree
      refine Or.inr ⟨g, pre, sz, post, ⟨hcs, hle, hpre, [], l, rfl, by simp⟩, ?_⟩
      rw [HeapCore.findChunk, hfit, hff, Option.bind_some]
    | none =>
      have hnone := firstFit_eq_none hff
      have heq : HeapCore.findChunk m needed (g :: l) = HeapCore.findChunk m needed l := by
        rw [HeapCore.findChunk, hfit, hff, Option.bind_some]
      rw [heq]
      rcases ih fun g' hg' => hl g' (mem_cons_of_mem _ hg') with
        ⟨hnot, hall⟩ | ⟨g', pre, sz, post, hat, hrest⟩
      · exact Or.inl ⟨hnot, forall_mem_cons.2 ⟨hnone, hall⟩⟩
      · obtain ⟨before, after, rfl, hbefore⟩ := hat.first
        exact Or.inr ⟨g', pre, sz, post, ⟨hat.cut, hat.fits, hat.lowest, g :: before, after, rfl,
          forall_mem_cons.2 ⟨hnone, hbefore⟩⟩, hrest⟩

end

theorem alloc_refused (core : HeapCore) (h : CHUNK_ALIGN < layout.align) : core.alloc m layout =
      some (0, { core with alignFailCount := wadd core.alignFailCount 1 }, m) := by
  rw [HeapCore.alloc, if_pos h]

/-- `alloc` behind its search. -/
theorem alloc_searched (core : HeapCore) {r : Option Nat} (h : ¬ CHUNK_ALIGN < layout.align)
    (hn : HeapCore.neededSize layout = some needed)
    (hfind : HeapCore.findChunk m needed core.segments = some r) : core.alloc m layout =
      some (r.elim (0, { core with oomCount := wadd core.oomCount 1 }, m)
        fun c => (payloadOf c, core.place m c needed)) := by
  simp only [HeapCore.alloc, if_neg h, hn, hfind, Option.map_some]
  cases r <;> rfl

/-- `alloc` takes the free chunk `sz` behind `pre` of the segment `g`: it is replaced by `carve`,
and the memory changes only between its header and the header after it. -/
structure Carved (core : HeapCore) (m : Mem) (layout : Layout) (g : Segment) (pre post : List Cell)
    (sz needed c : Nat) (m' : Mem) : Prop where
  result : core.alloc m layout = some (c + 16, { core with
    freeBytes := wsub core.freeBytes (takenBytes sz needed)
    allocCount := wadd core.allocCount 1 }, m')
  inv : SegmentInv m' g (pre ++ carve sz needed ++ post)
  frame : ∀ x, x < c + 8 ∨ c + sz + 16 ≤ x → m' x = m x
  quiet : ∀ y, c + takenBytes sz needed ≤ y → y < c + sz → y % 16 = 0 →
    flagsOf m y &&& IN_USE = 0 → flagsOf m' y &&& IN_USE = 0

theorem alloc_carves (core : HeapCore) (h : Arena m core.segments chunks)
    (halign : ¬ CHUNK_ALIGN < layout.align) (hneeded : HeapCore.neededSize layout = some needed)
    (hat : FirstFitAt core.segments chunks needed g pre sz post)
    (hfound : HeapCore.findChunk m needed core.segments = some (some (g.base + 16 + span pre))) :
    ∃ c m', c = g.base + 16 + span pre ∧ Carved core m layout g pre post sz needed c m' := by
  obtain ⟨hmin, hmod, -⟩ := neededSize_facts hneeded
  have hcs := hat.cut
  have hle := hat.fits
  have halloc := alloc_searched core halign hneeded hfound
  have hs := h.seg g hat.mem
  have hplaced : (g.base + 16 + span pre, ⟨sz, false⟩) ∈ placed (g.base + 16) (chunks g) :=
    mem_placed_iff.2 ⟨pre, post, hcs, rfl⟩
  obtain ⟨-, hszmod, hxmod, hlo, hhi, hsize, -⟩ := h.placed_facts hat.mem hplaced
  have hroom := hs.room
  have hlt := hs.end_lt
  have hfenced := hs.fenced
  rw [hcs] at hfenced
  simp only at hszmod hhi hsize
  generalize hc : g.base + 16 + span pre = c at *
  have hframe : ∀ x, x < c + 8 ∨ c + sz + 16 ≤ x → (core.place m c needed).2 x = m x :=
    fun x hx => place_frame core hsize hmin hle (by omega) hx
  refine ⟨c, (core.place m c needed).2, rfl, ?_, ?_, hframe, ?_⟩
  · rw [halloc, Option.elim_some, payloadOf, HEADER_SIZE, wadd_of_lt (by omega)]
    rw [← place_core core hsize hle (by omega)]
  · refine hs.retile ?_ fun x hx => hframe x (by omega)
    rw [← hc]
    exact place_tiling core hfenced (by omega) hmod hmin hle
  · intro y hy1 hy2 hy3 hquiet
    have htaken : needed ≤ takenBytes sz needed := by
      rw [takenBytes]
      split <;> omega
    exact place_quiet core hsize hle (by omega) (by omega) hszmod hmod hmin hy1 hy2 hquiet

/-- `alloc` returns. Either it fails and changes only a failure counter, or it carves the block out
of a free chunk. -/
theorem alloc_spec (core : HeapCore) (h : Arena m core.segments chunks) (layout : Layout) :
    (∃ core', core.alloc m layout = some (0, core', m) ∧ core'.segments = core.segments ∧
        core'.freeBytes = core.freeBytes ∧ core'.allocCount = core.allocCount ∧
        core'.badFreeCount = core.badFreeCount ∧ core'.doubleFreeCount = core.doubleFreeCount) ∨
    ∃ g ∈ core.segments, ∃ pre sz post needed c m',
      chunks g = pre ++ ⟨sz, false⟩ :: post ∧ c = g.base + 16 + span pre ∧
      32 ≤ needed ∧ needed % 16 = 0 ∧ layout.size + 16 ≤ needed ∧ needed ≤ sz ∧
      Carved core m layout g pre post sz needed c m' := by
  by_cases halign : CHUNK_ALIGN < layout.align
  · exact Or.inl ⟨_, alloc_refused core halign, rfl, rfl, rfl, rfl, rfl⟩
  obtain ⟨needed, hneeded⟩ : ∃ n, HeapCore.neededSize layout = some n := ⟨_, neededSize_eq layout⟩
  obtain ⟨hmin, hmod, hpay⟩ := neededSize_facts hneeded
  rcases h.findChunk_spec needed with ⟨hnone, -⟩ | ⟨g, pre, sz, post, hat, hfound⟩
  · exact Or.inl ⟨_, alloc_searched core halign hneeded hnone, rfl, rfl, rfl, rfl, rfl⟩
  · obtain ⟨c, m', hc, hrest⟩ := alloc_carves core h halign hneeded hat hfound
    exact Or.inr ⟨g, hat.mem, pre, sz, post, needed, c, m', hat.cut, hc, hmin, hmod, hpay,
      hat.fits, hrest⟩

/-! ## `dealloc` on an arena -/

/-- Freeing a used chunk returns. The chunk and its free neighbours are replaced by one free chunk,
and the memory changes only between the header of that span and the header after it. -/
theorem dealloc_spec (core : HeapCore) (h : Arena m core.segments chunks) (hg : g ∈ core.segments)
    {c : Nat} (hcs : chunks g = pre ++ ⟨sz, true⟩ :: post) (hc : c = g.base + 16 + span pre) :
    ∃ pre' post' l r m',
      core.dealloc m (c + 16) = some ({ core with
        freeBytes := wadd core.freeBytes sz
        allocCount := wsub core.allocCount 1 }, m') ∧
      DropLast pre pre' l ∧ DropHead post post' r ∧
      SegmentInv m' g (pre' ++ ⟨l + sz + r, false⟩ :: post') ∧
      (∀ x, x + l < c + 8 ∨ c + sz + r + 16 ≤ x → m' x = m x) ∧
      (∀ y, c ≤ y + l → y < c + sz + r → y % 16 = 0 →
        (y = c ∨ flagsOf m y &&& IN_USE = 0) → flagsOf m' y &&& IN_USE = 0) := by
  have hs := h.seg g hg
  have hroom := hs.room
  have hlt := hs.end_lt
  have hbmod := hs.base_mod
  have hplaced : (c, ⟨sz, true⟩) ∈ placed (g.base + 16) (chunks g) :=
    mem_placed_iff.2 ⟨pre, post, hcs, hc⟩
  obtain ⟨hsz, -, hcmod, hlo, hhi, -, -⟩ := h.placed_facts hg hplaced
  have hfenced := hs.fenced
  rw [hcs] at hfenced
  simp only at hsz hhi
  obtain ⟨pre', post', l, r, m', hres, hdl, hdh, hf', hframe, hquiet⟩ :=
    dealloc_tiling core hfenced hc (by omega) (by omega) (h.find_segment hg hlo (by omega))
      hs.first_eq hs.epilogue_eq
  have hspl := hdl.span_eq
  refine ⟨pre', post', l, r, m', hres, hdl, hdh, ?_, hframe, ?_⟩
  · exact hs.retile hf' fun x hx => hframe x (by omega)
  · exact fun y h1 h2 h3 h4 => hquiet y h1 h2 (by omega) h4

/-! ## `dealloc` after `alloc` -/

/-- Freeing the chunk that was carved out of a free chunk `sz` gives that free chunk back: there is
no free chunk before it, and after it at most the remainder. -/
theorem merge_carve {pre' post' : List Cell} {l r : Nat} (hle : needed ≤ sz)
    (hold : Coalesced true (pre ++ ⟨sz, false⟩ :: post)) {rest : List Cell}
    (hrest : carve sz needed = ⟨takenBytes sz needed, true⟩ :: rest)
    (hdl : DropLast pre pre' l) (hdh : DropHead (rest ++ post) post' r)
    (hnew : Coalesced true (pre' ++ ⟨l + takenBytes sz needed + r, false⟩ :: post')) :
    pre' ++ ⟨l + takenBytes sz needed + r, false⟩ :: post' = pre ++ ⟨sz, false⟩ :: post := by
  -- two free chunks in a row contradict one of the two tilings
  have hbefore : pre' = pre ∧ l = 0 := by
    cases hdl with
    | keep => exact ⟨rfl, rfl⟩
    | drop h =>
      subst h
      have hrow : Coalesced true (pre' ++ [⟨l, false⟩, ⟨sz, false⟩] ++ post) := by
        simpa using hold
      exact absurd (hrow.free_run (by simp)) (by simp)
  obtain ⟨rfl, rfl⟩ := hbefore
  rw [carve] at hrest
  rw [takenBytes] at hrest hnew ⊢
  split at hrest
  · next hsplit =>
    obtain rfl : [⟨sz - needed, false⟩] = rest := by simpa using hrest
    rw [if_pos hsplit] at hnew ⊢
    cases hdh with
    | keep =>
      have hrow : Coalesced true
          (pre' ++ [⟨0 + needed + 0, false⟩, ⟨sz - needed, false⟩] ++ post) := by
        simpa using hnew
      exact absurd (hrow.free_run (by simp)) (by simp)
    | drop h =>
      obtain ⟨⟨rfl⟩, rfl⟩ : sz - needed = r ∧ post = post' := by simpa using h
      rw [show 0 + needed + (sz - needed) = sz by omega]
  · next hwhole =>
    obtain rfl : [] = rest := by simpa using hrest
    rw [if_neg hwhole] at hnew ⊢
    cases hdh with
    | keep => simp
    | drop h =>
      rw [nil_append] at h
      subst h
      have hrow : Coalesced true (pre' ++ [⟨sz, false⟩, ⟨r, false⟩] ++ post') := by
        simpa using hold
      exact absurd (hrow.free_run (by simp)) (by simp)

/-- Freeing a block right after it was allocated, whatever was written behind its header, restores
the allocator state and the tiling of every segment. -/
theorem Arena.dealloc_alloc (core : HeapCore) (h : Arena m core.segments chunks)
    (hfree : core.freeBytes < 2 ^ 64) (hcount : core.allocCount < 2 ^ 64) {p : Nat}
    {core₁ : HeapCore} {m₁ m₂ : Mem} (halloc : core.alloc m layout = some (p, core₁, m₁))
    (hp : p ≠ 0) (hag : ∀ y, y < p ∨ p - 16 + sizeOf m₁ (p - 16) ≤ y → m₂ y = m₁ y) :
    p + layout.size ≤ p - 16 + sizeOf m₁ (p - 16) ∧
      ∃ m₃, core₁.dealloc m₂ p = some (core, m₃) ∧ Arena m₃ core.segments chunks := by
  rcases alloc_spec core h layout with ⟨_, hnull, -⟩ |
    ⟨g, hg, pre, sz, post, needed, c, m', hcs, hc, hmin, hmod, hpay, hle, hres, hs', hframe, -⟩
  · rw [hnull, Option.some.injEq, Prod.mk.injEq] at halloc
    exact absurd halloc.1.symm hp
  rw [hres, Option.some.injEq, Prod.mk.injEq, Prod.mk.injEq] at halloc
  obtain ⟨rfl, rfl, rfl⟩ := halloc
  have hold : (c, ⟨sz, false⟩) ∈ placed (g.base + 16) (chunks g) :=
    mem_placed_iff.2 ⟨pre, post, hcs, hc⟩
  have hfacts := h.placed_facts hg hold
  simp only at hfacts
  obtain ⟨rest, hrest⟩ : ∃ rest, carve sz needed = ⟨takenBytes sz needed, true⟩ :: rest := by
    rw [carve, takenBytes]
    split <;> exact ⟨_, rfl⟩
  have htaken : needed ≤ takenBytes sz needed := by
    rw [takenBytes]
    split <;> omega
  -- the arena after the allocation, and after the client's writes
  have harena₁ := h.replace hg hs' fun x hx => hframe x (by omega)
  generalize hchunks₁ : Function.update chunks g (pre ++ carve sz needed ++ post) = chunks₁
    at harena₁
  have hcs₁ : chunks₁ g = pre ++ ⟨takenBytes sz needed, true⟩ :: (rest ++ post) := by
    rw [← hchunks₁, Function.update_self, hrest, append_assoc, cons_append]
  have hplaced : (c, ⟨takenBytes sz needed, true⟩) ∈ placed (g.base + 16) (chunks₁ g) :=
    mem_placed_iff.2 ⟨pre, rest ++ post, hcs₁, hc⟩
  have hsize := (harena₁.placed_facts hg hplaced).2.2.2.2.2.1
  simp only at hsize
  rw [Nat.add_sub_cancel, hsize] at hag ⊢
  have harena₂ := harena₁.payload ⟨g, hg, hplaced⟩ hag
  refine ⟨by omega, ?_⟩
  obtain ⟨pre', post', l, r, m₃, hdealloc, hdl, hdh, hs₃, hframe₃, -⟩ := dealloc_spec
    { core with
      freeBytes := wsub core.freeBytes (takenBytes sz needed)
      allocCount := wadd core.allocCount 1 } harena₂ hg hcs₁ hc
  refine ⟨m₃, ?_, ?_⟩
  · rw [hdealloc]
    simp only [wadd_wsub hfree, wsub_wadd hcount]
  · have hspl := hdl.span_eq
    have hsegs := (harena₂.seg g hg).span_eq
    have hspr := hdh.span_eq
    rw [hcs₁, span_append] at hsegs
    simp only [span] at hsegs
    have hback := harena₂.replace hg hs₃ fun x hx => hframe₃ x (by omega)
    rw [merge_carve hle (hcs ▸ (h.seg g hg).coalesced) hrest hdl hdh hs₃.coalesced, ← hcs,
      ← hchunks₁, Function.update_idem, Function.update_eq_self] at hback
    exact hback

end Arena

end PlanckOS.Heap
