import PlanckOS.Heap.Arena
import PlanckOS.Heap.System
import PlanckOS.Lib.Intervals

/-!
# The invariant of the heap and its clients

`HeapInv s chunks` ties the allocator's memory to what the clients know: the segments form an
arena with the chunks `chunks`, each inside a region handed over by a client; `free_bytes` is the
total size of the free chunks; the used chunks are exactly those of the blocks held, with room for
their payloads; and every freed block whose header was not reused lies in a free chunk with its
in-use bit clear. `heapInv_of_reachable` carries it through every run that keeps away from the top
of the address space.

The ledger part of the invariant (`Ledger`) speaks of the placed chunks only. An operation that
replaces a stretch of chunks is described by what it does to the predicate of placed chunks, and
the ledger is updated from that description alone.
-/

set_option autoImplicit false

namespace PlanckOS.Heap

open Lib.Word Lib.ByteMemory Lib.Tiling Lib.Intervals
open List hiding span
open Lib.Transition

variable {m m' : Mem} {live : List Block} {log : List HeapEvent} {p x a sz needed c₀ lo hi : Nat}
  {c : Cell} {layout : Layout}

/-! ## The ledger of blocks -/

/-- `p` lies in a free chunk and does not look like a block in use. -/
def Quiet (P : Nat → Cell → Prop) (m : Mem) (p : Nat) : Prop :=
  p % 16 = 0 ∧ flagsOf m (p - 16) &&& IN_USE = 0 ∧
    ∃ x c, P x c ∧ c.used = false ∧ x + 16 ≤ p ∧ p < x + 16 + c.size

/-- The blocks held are the used chunks; freed blocks stay quiet. -/
structure Ledger (P : Nat → Cell → Prop) (m : Mem) (live : List Block) (log : List HeapEvent) :
    Prop where
  nodup : (live.map Block.ptr).Nodup
  live_used : ∀ b ∈ live, ∃ x c, b.ptr = x + 16 ∧ P x c ∧ c.used = true ∧
    b.layout.size + 16 ≤ c.size
  used_live : ∀ x c, P x c → c.used = true → ∃ b ∈ live, b.ptr = x + 16
  stale : ∀ p, Stale log p → Quiet P m p

/-- The chunks are aligned, large enough and below the top of the address space. -/
def Sound (P : Nat → Cell → Prop) : Prop :=
  ∀ ⦃x c⦄, P x c → x % 16 = 0 ∧ c.size % 16 = 0 ∧ 32 ≤ c.size ∧ x + c.size + 16 < 2 ^ 64

section Ledger

variable {P P' : Nat → Cell → Prop}

/-- A quiet header outside the bytes written stays quiet. -/
theorem Quiet.keep (hmod : p % 16 = 0)
    (hflags : flagsOf m (p - 16) &&& IN_USE = 0) (hc : P' x c) (hfree : c.used = false)
    (hlo : x + 16 ≤ p) (hhi : p < x + 16 + c.size) (htop : p ≤ 2 ^ 64)
    (hag : ∀ y, p - 8 ≤ y → y < p → m' y = m y) : Quiet P' m' p := by
  refine ⟨hmod, ?_, x, c, hc, hfree, hlo, hhi⟩
  rw [flagsOf_congr (by omega) fun y h1 h2 => hag y (by omega) (by omega)]
  exact hflags

/-- Cells of a carved chunk. -/
theorem mem_placed_carve : (x, c) ∈ placed a (carve sz needed) ↔
      (x = a ∧ c = ⟨takenBytes sz needed, true⟩) ∨
        (MIN_CHUNK ≤ sz - needed ∧ x = a + needed ∧ c = ⟨sz - needed, false⟩) := by
  rw [carve, takenBytes]
  by_cases h : MIN_CHUNK ≤ sz - needed
  · simp [h, placed]
  · simp [h, placed]

/-- The ledger after an allocation at `c₀`: the free chunk there was carved, and every other chunk
stays. -/
theorem Ledger.alloc (h : Ledger P m live log)
    (hinj : ∀ x c d, P x c → P x d → c = d) (hsound : Sound P)
    (hold : P c₀ ⟨sz, false⟩) (hpay : layout.size + 16 ≤ needed) (hle : needed ≤ sz)
    (hkeep : ∀ x c, P x c → (x = c₀ ∧ c = ⟨sz, false⟩) ∨ P' x c ∧ (x + c.size ≤ c₀ ∨ c₀ + sz ≤ x))
    (hnew : ∀ x c, P' x c → (x, c) ∈ placed c₀ (carve sz needed) ∨ P x c)
    (hcarve : ∀ x c, (x, c) ∈ placed c₀ (carve sz needed) → P' x c)
    (hadj : ∀ x c, P x c → c.used = false → x ≠ c₀ + sz)
    (hframe : ∀ x, x < c₀ + 8 ∨ c₀ + sz + 16 ≤ x → m' x = m x)
    (hquiet : ∀ y, c₀ + takenBytes sz needed ≤ y → y < c₀ + sz → y % 16 = 0 →
      flagsOf m y &&& IN_USE = 0 → flagsOf m' y &&& IN_USE = 0) :
    Ledger P' m' (⟨c₀ + 16, layout⟩ :: live)
      (.alloc (c₀ + 16) (takenBytes sz needed) :: log) := by
  have htaken : needed ≤ takenBytes sz needed := by
    rw [takenBytes]
    split <;> omega
  refine ⟨?_, ?_, ?_, ?_⟩
  · -- a block at the same address would be in a used chunk there, but that chunk was free
    refine nodup_cons.2 ⟨fun hmem => ?_, h.nodup⟩
    obtain ⟨b, hb, hptr⟩ := mem_map.1 hmem
    obtain ⟨x, c, hx, hc, hused, -⟩ := h.live_used b hb
    have hxc : x = c₀ := by
      simp only at hptr
      omega
    subst hxc
    rw [hinj _ _ _ hc hold] at hused
    simp at hused
  · intro b hb
    rcases mem_cons.1 hb with rfl | hb
    · refine ⟨c₀, _, rfl, hcarve _ _ (mem_placed_carve.2 (Or.inl ⟨rfl, rfl⟩)), rfl, ?_⟩
      simp only
      omega
    · obtain ⟨x, c, hx, hc, hused, hsize⟩ := h.live_used b hb
      rcases hkeep x c hc with ⟨-, rfl⟩ | ⟨hc', -⟩
      · simp at hused
      · exact ⟨x, c, hx, hc', hused, hsize⟩
  · intro x c hc hused
    rcases hnew x c hc with hmem | hc
    · rcases mem_placed_carve.1 hmem with ⟨rfl, -⟩ | ⟨-, -, rfl⟩
      · exact ⟨_, mem_cons_self, rfl⟩
      · simp at hused
    · obtain ⟨b, hb, hptr⟩ := h.used_live x c hc hused
      exact ⟨b, mem_cons_of_mem _ hb, hptr⟩
  · rintro p ⟨hstale, hapart⟩
    obtain ⟨hp16, hflags, x, c, hc, hfree, hlo, hhi⟩ := h.stale p hstale
    obtain ⟨hx16, hc16, -, htop⟩ := hsound hc
    simp only [HEADER_SIZE, Nat.add_sub_cancel] at hapart
    rcases hkeep x c hc with ⟨rfl, rfl⟩ | ⟨hc', hsep⟩
    · -- the header lies in the carved chunk, behind the part taken: the chunk was split
      simp only at hhi hc16
      have hrest : MIN_CHUNK ≤ sz - needed := by
        by_contra hn
        rw [takenBytes, if_neg hn] at hapart
        omega
      have hx' : takenBytes sz needed = needed := by rw [takenBytes, if_pos hrest]
      refine ⟨hp16, hquiet _ (by omega) (by omega) (by omega) hflags, x + needed, _,
        hcarve _ _ (mem_placed_carve.2 (Or.inr ⟨hrest, rfl, rfl⟩)), rfl, by omega, ?_⟩
      simp only
      omega
    · have hne := hadj x c hc hfree
      have hc₀ := hsound hold
      simp only at hc₀
      refine Quiet.keep hp16 hflags hc' hfree hlo hhi (by omega) fun y h1 h2 => hframe y ?_
      omega

/-- The ledger after the block at `c₀` was freed: the stretch `[lo, hi)` around it became one free
chunk, and every other chunk stays. -/
theorem Ledger.dealloc (h : Ledger P m live log)
    (hsound : Sound P) (hlo : lo ≤ c₀) (hhi : c₀ < hi) (hc₀ : c₀ % 16 = 0) (hlo16 : lo % 16 = 0)
    (hhi16 : hi % 16 = 0)
    (hkeep : ∀ x c, P x c → (lo ≤ x ∧ x + c.size ≤ hi ∧ (c.used = true → x = c₀)) ∨
      P' x c ∧ (x + c.size ≤ lo ∨ hi ≤ x)) (hnew : ∀ x c, P' x c → (x = lo ∧ c = ⟨hi - lo, false⟩) ∨
      P x c ∧ (x + c.size ≤ lo ∨ hi ≤ x)) (hmerged : P' lo ⟨hi - lo, false⟩)
    (hadj : ∀ x c, P' x c → c.used = false → x ≠ hi)
    (hframe : ∀ x, x < lo + 8 ∨ hi + 16 ≤ x → m' x = m x)
    (hquiet : ∀ y, lo ≤ y → y < hi → y % 16 = 0 →
      (y = c₀ ∨ flagsOf m y &&& IN_USE = 0) → flagsOf m' y &&& IN_USE = 0) :
    Ledger P' m' (live.filter fun b => b.ptr != c₀ + 16) (.dealloc (c₀ + 16) :: log) := by
  refine ⟨?_, ?_, ?_, ?_⟩
  · exact h.nodup.sublist (filter_sublist.map _)
  · intro b hb
    obtain ⟨hb, hne⟩ := mem_filter.1 hb
    obtain ⟨x, c, hx, hc, hused, hsize⟩ := h.live_used b hb
    rcases hkeep x c hc with ⟨-, -, hxc⟩ | ⟨hc', -⟩
    · rw [hx, hxc hused] at hne
      simp at hne
    · exact ⟨x, c, hx, hc', hused, hsize⟩
  · intro x c hc hused
    rcases hnew x c hc with ⟨-, rfl⟩ | ⟨hc, hsep⟩
    · simp at hused
    · obtain ⟨b, hb, hptr⟩ := h.used_live x c hc hused
      have hpos := (hsound hc).2.2.1
      refine ⟨b, mem_filter.2 ⟨hb, ?_⟩, hptr⟩
      rw [bne_iff_ne, hptr]
      omega
  · -- a freed header inside the stretch is quiet by the merge, one outside by the frame
    have hinside : ∀ p, p % 16 = 0 → lo + 16 ≤ p → p < hi + 16 →
        (p = c₀ + 16 ∨ flagsOf m (p - 16) &&& IN_USE = 0) → Quiet P' m' p := by
      intro p hp16 h1 h2 hq
      refine ⟨hp16, hquiet _ (by omega) (by omega) (by omega) ?_, lo, _, hmerged, rfl, h1, ?_⟩
      · rcases hq with rfl | hq
        · exact Or.inl (Nat.add_sub_cancel ..)
        · exact Or.inr hq
      · simp only
        omega
    rintro p (rfl | hstale)
    · exact hinside _ (by omega) (by omega) (by omega) (Or.inl rfl)
    · obtain ⟨hp16, hflags, x, c, hc, hfree, hxp, hpx⟩ := h.stale p hstale
      obtain ⟨hx16, hc16, -, htop⟩ := hsound hc
      rcases hkeep x c hc with ⟨h1, h2, -⟩ | ⟨hc', hsep⟩
      · exact hinside p hp16 (by omega) (by omega) (Or.inr hflags)
      · have hne := hadj x c hc' hfree
        refine Quiet.keep hp16 hflags hc' hfree hxp hpx (by omega) fun y h1 h2 => hframe y ?_
        omega

/-- The ledger when chunks are added and the memory of the old ones stays. -/
theorem Ledger.grow (h : Ledger P m live log) (hsound : Sound P) (hkeep : ∀ x c, P x c → P' x c)
    (hnew : ∀ x c, P' x c → c.used = true → P x c)
    (hframe : ∀ x c, P x c → c.used = false → ∀ y, x ≤ y → y < x + c.size → m' y = m y) :
    Ledger P' m' live log := by
  refine ⟨h.nodup, ?_, fun x c hc hused => h.used_live x c (hnew x c hc hused) hused, ?_⟩
  · intro b hb
    obtain ⟨x, c, hx, hc, hrest⟩ := h.live_used b hb
    exact ⟨x, c, hx, hkeep x c hc, hrest⟩
  · intro p hstale
    obtain ⟨hp16, hflags, x, c, hc, hfree, hxp, hpx⟩ := h.stale p hstale
    obtain ⟨hx16, hc16, -, htop⟩ := hsound hc
    exact Quiet.keep hp16 hflags (hkeep x c hc) hfree hxp hpx (by omega) fun y h1 h2 =>
      hframe x c hc hfree y (by omega) (by omega)

end Ledger

/-! ## The invariant -/

/-- Memory, counters and ledger agree with the chunks `chunks`. -/
structure HeapInv (s : HeapSystem) (chunks : Segment → List Cell) : Prop where
  arena : Arena s.mem s.core.segments chunks
  within : ∀ g ∈ s.core.segments, ∃ r ∈ s.regions, r.base ≤ g.base ∧ g.endAddr ≤ r.endAddr
  free_eq : s.core.freeBytes = (s.core.segments.map fun g => freeSpan (chunks g)).sum
  count_eq : s.core.allocCount = s.live.length
  no_violation : s.core.badFreeCount = 0 ∧ s.core.doubleFreeCount = 0
  ledger : Ledger (PlacedIn s.core.segments chunks) s.mem s.live s.log

section Steps

variable {segs : List Segment} {chunks : Segment → List Cell} {s s' : HeapSystem}
  {g : Segment} {pre post L R : List Cell}

theorem Arena.sound (h : Arena m segs chunks) : Sound (PlacedIn segs chunks) := by
  rintro x c ⟨g, hg, hx⟩
  obtain ⟨h1, h2, h3, h4, h5, -, -⟩ := h.placed_facts hg hx
  have hlt := (h.seg g hg).end_lt
  exact ⟨h3, h2, h1, by omega⟩

/-- The free bytes of an arena fit a machine word. -/
theorem Arena.freeSum_lt (h : Arena m segs chunks) :
    (segs.map fun g => freeSpan (chunks g)).sum < 2 ^ 64 := by
  have hle : (segs.map fun g => freeSpan (chunks g)).sum
      ≤ (segs.map fun g => g.endAddr - g.base).sum := by
    refine sum_le_sum fun g hg => ?_
    have hsp := (h.seg g hg).span_eq
    have hfree := freeSpan_le_span (chunks g)
    omega
  have hsum := sum_length_le (N := 2 ^ 64 - 1) h.apart fun g hg => by
    have := (h.seg g hg).end_lt
    omega
  omega

/-- Replacing the chunks of one segment moves the total of the free bytes by the difference there.
-/
theorem Arena.retiled (h : Arena m segs chunks) (hg : g ∈ segs) {cs : List Cell}
    (hs' : SegmentInv m' g cs) (hag : ∀ x, x < g.base + 8 ∨ g.endAddr ≤ x → m' x = m x) :
    ∃ chunks', Arena m' segs chunks' ∧ chunks' g = cs ∧ (∀ g', g' ≠ g → chunks' g' = chunks g') ∧
      (segs.map fun g' => freeSpan (chunks' g')).sum + freeSpan (chunks g) =
        (segs.map fun g' => freeSpan (chunks g')).sum + freeSpan cs := by
  have hother : ∀ g', g' ≠ g → Function.update chunks g cs g' = chunks g' :=
    fun _ hne => Function.update_of_ne hne ..
  have hupd := sum_map_update h.nodup hg (fun g' => freeSpan (chunks g'))
    (fun g' => freeSpan (Function.update chunks g cs g')) fun g' _ hne => by rw [hother g' hne]
  rw [Function.update_self] at hupd
  exact ⟨_, h.replace hg hs' hag, Function.update_self .., hother, hupd⟩

/-- There are fewer blocks than addresses. -/
theorem Ledger.length_lt (h : Ledger (PlacedIn segs chunks) m live log) (ha : Arena m segs chunks) :
    live.length < 2 ^ 64 := by
  have hlen := length_le_of_nodup (N := 2 ^ 64 - 1) h.nodup fun p hp => by
    obtain ⟨b, hb, rfl⟩ := mem_map.1 hp
    obtain ⟨x, c, hx, hc, -, -⟩ := h.live_used b hb
    obtain ⟨-, -, h1, h2⟩ := ha.sound hc
    omega
  rw [length_map] at hlen
  omega

theorem heapInv_start (m : Mem) : HeapInv (HeapSystem.start m) fun _ => [] := by
  refine ⟨⟨fun g hg => by simp [HeapSystem.start, HeapCore.new] at hg, List.Pairwise.nil⟩,
    fun g hg => by simp [HeapSystem.start, HeapCore.new] at hg, rfl, rfl, ⟨rfl, rfl⟩,
    nodup_nil, fun b hb => by simp [HeapSystem.start] at hb, ?_, fun p hp => hp.elim⟩
  rintro x c ⟨g, hg, -⟩
  simp [HeapSystem.start, HeapCore.new] at hg

/-! ### Writes into payloads -/

section

variable (h : HeapInv s chunks)
include h

theorem HeapInv.write (v : UInt8) (ha : s.inPayload a = true) :
    HeapInv { s with mem := writeByte s.mem a v } chunks := by
  obtain ⟨b, hb, hin⟩ := any_eq_true.1 ha
  simp only [Bool.and_eq_true, decide_eq_true_eq] at hin
  obtain ⟨x, c, hx, hc, hused, hsize⟩ := h.ledger.live_used b hb
  have hframe : ∀ y, y < x + 16 ∨ x + c.size ≤ y → writeByte s.mem a v y = s.mem y :=
    fun y hy => writeByte_apply_of_ne _ _ (by omega)
  refine ⟨?_, h.within, h.free_eq, h.count_eq, h.no_violation, ?_⟩
  · obtain ⟨sz, used⟩ := c
    simp only at hused hframe
    subst hused
    exact h.arena.payload hc hframe
  · refine h.ledger.grow h.arena.sound (fun _ _ hd => hd) (fun _ _ hd _ => hd)
      fun y d hd hfree z h1 h2 => hframe z ?_
    have hne : (x, c) ≠ (y, d) := by
      intro heq
      rw [(Prod.mk.inj heq).2] at hused
      rw [hused] at hfree
      simp at hfree
    rcases h.arena.separate hc hd hne with hsep | hsep <;> omega

/-! ### Allocation -/

/-- Carving `needed` bytes out of the free chunk at `c` of the segment `g` keeps the invariant. -/
theorem HeapInv.carve (hg : g ∈ s.core.segments) {c : Nat}
    (hcs : chunks g = pre ++ ⟨sz, false⟩ :: post) (hc : c = g.base + 16 + span pre)
    (hpay : layout.size + 16 ≤ needed) (hle : needed ≤ sz)
    (hcarved : Carved s.core s.mem layout g pre post sz needed c m') :
    ∃ chunks', chunks' g = pre ++ Heap.carve sz needed ++ post ∧ HeapInv { s with
        core := { s.core with
          freeBytes := wsub s.core.freeBytes (takenBytes sz needed)
          allocCount := wadd s.core.allocCount 1 }
        mem := m'
        live := ⟨c + 16, layout⟩ :: s.live
        log := .alloc (c + 16) (takenBytes sz needed) :: s.log } chunks' := by
  -- the tiling of `g` changes at the chunk only, by parts of the same length
  have hold : (c, ⟨sz, false⟩) ∈ placed (g.base + 16) (chunks g) :=
    mem_placed_iff.2 ⟨pre, post, hcs, hc⟩
  have hfacts := h.arena.placed_facts hg hold
  simp only at hfacts
  have hcs₁ : chunks g = pre ++ [⟨sz, false⟩] ++ post := by simp [hcs]
  have hspan : span (Heap.carve sz needed) = span [⟨sz, false⟩] := by
    rw [span_carve hle]
    rfl
  obtain ⟨chunks', harena, hcs', hother, hsum⟩ :=
    h.arena.retiled hg hcarved.inv fun x hx => hcarved.frame x (by omega)
  have hledger : Ledger (PlacedIn s.core.segments chunks') m' (⟨c + 16, layout⟩ :: s.live)
      (.alloc (c + 16) (takenBytes sz needed) :: s.log) := by
    refine h.ledger.alloc (fun _ _ _ => h.arena.placed_inj) h.arena.sound ⟨g, hg, hold⟩ hpay hle
      (fun x d hd => ?_) (fun x d hd => ?_) (fun x d hd => ?_) (fun x d hd hfree => ?_)
      hcarved.frame hcarved.quiet
    · rcases h.arena.placed_swap hg hcs₁ hcs' hother hspan hd with hmem | hkeep
      · rw [← hc] at hmem
        simp only [placed, mem_cons, not_mem_nil, or_false, Prod.mk.injEq] at hmem
        exact Or.inl hmem
      · rw [← hc] at hkeep
        exact Or.inr hkeep
    · rcases harena.placed_swap hg hcs' hcs₁ (fun g' hne => (hother g' hne).symm) hspan.symm hd
        with hmem | hkeep
      · rw [← hc] at hmem
        exact Or.inl hmem
      · exact Or.inr hkeep.1
    · refine ⟨g, hg, ?_⟩
      rw [hcs', placed_append, placed_append, ← hc]
      exact mem_append_left _ (mem_append_right _ hd)
    · exact (h.arena.not_adjacent ⟨g, hg, hold⟩ hd rfl hfree).symm
  -- the counters do not wrap: the bytes taken were free, and the blocks fit into the memory
  have hcarve := freeSpan_carve hle
  have hlen := hledger.length_lt harena
  rw [hcs₁] at hsum
  simp only [freeSpan_append, freeSpan, Bool.false_eq_true, if_false] at hsum
  refine ⟨chunks', hcs', harena, h.within, ?_, ?_, h.no_violation, hledger⟩
  · simp only [h.free_eq]
    have hbound := h.arena.freeSum_lt
    rw [wsub_of_le (by omega) (by omega)]
    omega
  · simp only [h.count_eq, length_cons] at hlen ⊢
    exact wadd_of_lt hlen

/-- What `alloc` does in a state with the invariant: it fails and changes a failure counter only, or
it returns a block in a used chunk of its own. -/
theorem HeapInv.alloc_cases (layout : Layout) :
    (∃ core', s.core.alloc s.mem layout = some (0, core', s.mem) ∧
        core'.freeBytes = s.core.freeBytes ∧ core'.allocCount = s.core.allocCount ∧
        s.step (.alloc layout) = some { s with core := core' } ∧
        HeapInv { s with core := core' } chunks) ∨
    ∃ c taken core' m' chunks', s.core.alloc s.mem layout = some (c + 16, core', m') ∧
      core'.segments = s.core.segments ∧ core'.freeBytes + taken = s.core.freeBytes ∧
      core'.allocCount = s.core.allocCount + 1 ∧
      PlacedIn s.core.segments chunks' c ⟨taken, true⟩ ∧ layout.size + 16 ≤ taken ∧
      s.step (.alloc layout) = some { s with
        core := core'
        mem := m'
        live := ⟨c + 16, layout⟩ :: s.live
        log := .alloc (c + 16) taken :: s.log } ∧
      HeapInv { s with
        core := core'
        mem := m'
        live := ⟨c + 16, layout⟩ :: s.live
        log := .alloc (c + 16) taken :: s.log } chunks' ∧
      ∀ x d, PlacedIn s.core.segments chunks x d → d.used = true →
        ∀ y, x + 16 ≤ y → y < x + d.size → m' y = s.mem y := by
  rcases alloc_spec s.core h.arena layout with
    ⟨core', hres, hseg, hfree, hcount, hbad⟩ |
    ⟨g, hg, pre, sz, post, needed, c, m', hcs, hc, hmin, hmod, hpay, hle, hcarved⟩
  · refine Or.inl ⟨core', hres, hfree, hcount, ?_, ?_⟩
    · rw [HeapSystem.step, hres, Option.map_some]
      simp only [if_true]
    · refine ⟨?_, ?_, ?_, ?_, ?_, ?_⟩ <;> simp only [hseg, hfree, hcount, hbad]
      exacts [h.arena, h.within, h.free_eq, h.count_eq, h.no_violation, h.ledger]
  · right
    obtain ⟨chunks', hcs', hinv⟩ := h.carve hg hcs hc hpay hle hcarved
    have htaken : (c, ⟨takenBytes sz needed, true⟩) ∈
        placed (g.base + 16) (pre ++ Heap.carve sz needed ++ post) := by
      rw [placed_append, placed_append, ← hc]
      exact mem_append_left _ (mem_append_right _ (mem_placed_carve.2 (Or.inl ⟨rfl, rfl⟩)))
    have hsize := (hcarved.inv.fenced.1.placed_facts htaken).2.2.2.2.2.1
    have hold : (c, ⟨sz, false⟩) ∈ placed (g.base + 16) (chunks g) :=
      mem_placed_iff.2 ⟨pre, post, hcs, hc⟩
    refine ⟨c, takenBytes sz needed, _, m', chunks', hcarved.result, rfl, ?_, ?_,
      ⟨g, hg, hcs' ▸ htaken⟩, ?_, ?_, hinv, ?_⟩
    · -- the bytes taken were free
      have hle' : takenBytes sz needed ≤ s.core.freeBytes := by
        have hcarve := freeSpan_carve hle
        have hmem := single_le_sum (fun _ _ => Nat.zero_le _) _
          (mem_map_of_mem (f := fun g => freeSpan (chunks g)) hg)
        rw [hcs] at hmem
        simp only [freeSpan_append, freeSpan, Bool.false_eq_true, if_false] at hmem
        rw [h.free_eq]
        omega
      simp only
      rw [wsub_of_le (h.free_eq ▸ h.arena.freeSum_lt) hle']
      omega
    · have hcount := hinv.count_eq
      simp only [length_cons, ← h.count_eq] at hcount
      exact hcount
    · rw [takenBytes]
      split <;> omega
    · rw [HeapSystem.step, hcarved.result, Option.map_some]
      simp only [HEADER_SIZE, Nat.add_sub_cancel, hsize, if_neg (show c + 16 ≠ 0 by omega)]
    · -- the other used chunks lie outside of the carved one
      intro x d hd hused y h1 h2
      have hne : (x, d) ≠ (c, ⟨sz, false⟩) := by
        intro heq
        rw [(Prod.mk.inj heq).2] at hused
        simp at hused
      refine hcarved.frame y ?_
      rcases h.arena.separate hd ⟨g, hg, hold⟩ hne with hsep | hsep
      · omega
      · simp only at hsep
        omega

/-! ### Freeing -/

omit h in
/-- Cells of a stretch with one used cell between free ones. -/
theorem placed_freed {d : Cell} (hL : ∀ d ∈ L, d.used = false)
    (hR : ∀ d ∈ R, d.used = false) (hx : (x, d) ∈ placed lo (L ++ ⟨sz, true⟩ :: R))
    (hused : d.used = true) : x = lo + span L := by
  rw [placed_append, mem_append, placed, mem_cons] at hx
  rcases hx with hx | hx | hx
  · rw [hL d (mem_of_placed hx)] at hused
    simp at hused
  · exact (Prod.mk.inj hx).1
  · rw [hR d (mem_of_placed hx)] at hused
    simp at hused

/-- Replacing the used chunk at `c` and its free neighbours by one free chunk keeps the
invariant. -/
theorem HeapInv.merge (hg : g ∈ s.core.segments) {c : Nat}
    (hcs : chunks g = pre ++ (L ++ ⟨sz, true⟩ :: R) ++ post) (hlo : lo = g.base + 16 + span pre)
    (hc : c = lo + span L) (hhi : hi = c + sz + span R) (hL : ∀ d ∈ L, d.used = false)
    (hR : ∀ d ∈ R, d.used = false) (hfL : freeSpan L = span L) (hfR : freeSpan R = span R)
    (hs' : SegmentInv m' g (pre ++ [⟨hi - lo, false⟩] ++ post))
    (hframe : ∀ x, x < lo + 8 ∨ hi + 16 ≤ x → m' x = m x)
    (hquiet : ∀ y, lo ≤ y → y < hi → y % 16 = 0 →
      (y = c ∨ flagsOf m y &&& IN_USE = 0) → flagsOf m' y &&& IN_USE = 0)
    (hm : s.mem = m) :
    ∃ chunks', HeapInv { s with
        core := { s.core with
          freeBytes := wadd s.core.freeBytes sz
          allocCount := wsub s.core.allocCount 1 }
        mem := m'
        live := s.live.filter fun b => b.ptr != c + 16
        log := .dealloc (c + 16) :: s.log } chunks' ∧
      s.core.freeBytes + sz < 2 ^ 64 ∧
      (∀ x d, d.used = true → (PlacedIn s.core.segments chunks' x d ↔
        PlacedIn s.core.segments chunks x d ∧ x ≠ c)) ∧
      ∀ x d, PlacedIn s.core.segments chunks x d → d.used = true → x ≠ c →
        x + d.size ≤ lo ∨ hi ≤ x := by
  subst hm
  have hs := h.arena.seg g hg
  have hroom := hs.room
  have hsp := hs.span_eq
  have hused : (c, ⟨sz, true⟩) ∈ placed (g.base + 16) (chunks g) :=
    mem_placed_iff.2 ⟨pre ++ L, R ++ post, by simp [hcs], by rw [span_append]; omega⟩
  have hfacts := h.arena.placed_facts hg hused
  simp only at hfacts
  have hspan : span [⟨hi - lo, false⟩] = span (L ++ ⟨sz, true⟩ :: R) := by
    simp only [span_append, span]
    omega
  rw [hcs] at hsp
  simp only [span_append, span] at hsp
  obtain ⟨chunks', harena, hcs', hother, hsum⟩ :=
    h.arena.retiled hg hs' fun x hx => hframe x (by omega)
  have hmerged : (lo, ⟨hi - lo, false⟩) ∈ placed (g.base + 16) (chunks' g) :=
    mem_placed_iff.2 ⟨pre, post, by simp [hcs'], hlo⟩
  have hmfacts := harena.placed_facts hg hmerged
  simp only at hmfacts
  -- what becomes of the placed chunks, in both directions
  have hkeep : ∀ x d, PlacedIn s.core.segments chunks x d →
      (lo ≤ x ∧ x + d.size ≤ hi ∧ (d.used = true → x = c)) ∨
        PlacedIn s.core.segments chunks' x d ∧ (x + d.size ≤ lo ∨ hi ≤ x) := by
    intro x d hd
    rcases h.arena.placed_swap hg hcs hcs' hother hspan hd with hmem | ⟨hd', hsep⟩
    · rw [← hlo] at hmem
      have hle := placed_le hmem
      simp only [span_append, span] at hle
      refine Or.inl ⟨hle.1, by omega, fun hu => ?_⟩
      rw [hc]
      exact placed_freed hL hR hmem hu
    · simp only [span_append, span] at hsep
      exact Or.inr ⟨hd', by omega⟩
  have hback : ∀ x d, PlacedIn s.core.segments chunks' x d → (x = lo ∧ d = ⟨hi - lo, false⟩) ∨
        PlacedIn s.core.segments chunks x d ∧ (x + d.size ≤ lo ∨ hi ≤ x) := by
    intro x d hd
    rcases harena.placed_swap hg hcs' hcs (fun g' hne => (hother g' hne).symm) hspan.symm hd
      with hmem | ⟨hd', hsep⟩
    · rw [← hlo] at hmem
      simp only [placed, mem_cons, not_mem_nil, or_false, Prod.mk.injEq] at hmem
      exact Or.inl hmem
    · simp only [span] at hsep
      exact Or.inr ⟨hd', by omega⟩
  have hledger : Ledger (PlacedIn s.core.segments chunks') m'
      (s.live.filter fun b => b.ptr != c + 16) (.dealloc (c + 16) :: s.log) := by
    refine h.ledger.dealloc h.arena.sound (by omega) (by omega) (by omega) (by omega) (by omega)
      hkeep hback ⟨g, hg, hmerged⟩ (fun x d hd hfree => ?_) hframe hquiet
    have hne := harena.not_adjacent ⟨g, hg, hmerged⟩ hd rfl hfree
    simp only at hne
    omega
  have hbound := harena.freeSum_lt
  rw [hcs] at hsum
  simp only [freeSpan_append, freeSpan, Bool.false_eq_true, if_false, if_true] at hsum
  obtain ⟨b, hb, hptr⟩ := h.ledger.used_live c _ ⟨g, hg, hused⟩ rfl
  have hcount := length_filter_key h.ledger.nodup (mem_map.2 ⟨b, hb, hptr⟩)
  have hlen := h.ledger.length_lt h.arena
  refine ⟨chunks', ⟨harena, h.within, ?_, ?_, h.no_violation, hledger⟩, by rw [h.free_eq]; omega,
    fun x d hu => ⟨?_, ?_⟩, ?_⟩
  · simp only [h.free_eq]
    rw [wadd_of_lt (by omega)]
    omega
  · simp only [h.count_eq]
    rw [wsub_of_le hlen (by omega)]
    omega
  · intro hd
    rcases hback x d hd with ⟨-, rfl⟩ | ⟨hd', hsep⟩
    · simp at hu
    · have hpos := (h.arena.sound hd').2.2.1
      exact ⟨hd', by omega⟩
  · rintro ⟨hd, hne⟩
    rcases hkeep x d hd with ⟨-, -, hxc⟩ | ⟨hd', -⟩
    · exact absurd (hxc hu) hne
    · exact hd'
  · intro x d hd hu hne
    rcases hkeep x d hd with ⟨-, -, hxc⟩ | ⟨-, hsep⟩
    · exact absurd (hxc hu) hne
    · exact hsep

/-- What `dealloc` does with a block somebody holds: its chunk leaves the used chunks, and nothing
else changes for the other blocks. -/
theorem HeapInv.dealloc_cases (hheld : s.holds p = true) :
    ∃ c sz core' m' chunks', p = c + 16 ∧ PlacedIn s.core.segments chunks c ⟨sz, true⟩ ∧
      s.core.dealloc s.mem p = some (core', m') ∧
      core' = { s.core with freeBytes := core'.freeBytes, allocCount := core'.allocCount } ∧
      core'.freeBytes = s.core.freeBytes + sz ∧ core'.allocCount + 1 = s.core.allocCount ∧
      s.step (.dealloc p) = some { s with
        core := core'
        mem := m'
        live := s.live.filter fun b => b.ptr != p
        log := .dealloc p :: s.log } ∧
      HeapInv { s with
        core := core'
        mem := m'
        live := s.live.filter fun b => b.ptr != p
        log := .dealloc p :: s.log } chunks' ∧
      (∀ x d, d.used = true → (PlacedIn s.core.segments chunks' x d ↔
        PlacedIn s.core.segments chunks x d ∧ x ≠ c)) ∧
      ∀ x d, PlacedIn s.core.segments chunks x d → d.used = true → x ≠ c →
        ∀ y, x + 16 ≤ y → y < x + d.size → m' y = s.mem y := by
  obtain ⟨b, hb, hbp⟩ := any_eq_true.1 hheld
  obtain ⟨x, ⟨sz, used⟩, hx, ⟨g, hg, hmem⟩, hu, -⟩ := h.ledger.live_used b hb
  simp only at hu
  subst hu
  obtain ⟨pre, post, hcs, hxp⟩ := mem_placed_iff.1 hmem
  obtain ⟨pre', post', l, r, m', hres, hdl, hdh, hs', hframe, hquiet⟩ :=
    dealloc_spec s.core h.arena hg hcs hxp
  -- the free chunks on both sides, empty lists when there are none, merge with the freed one
  obtain ⟨L, hpre, hL, hfL, hLfree⟩ := hdl.split
  obtain ⟨R, hpost, hR, hfR, hRfree⟩ := hdh.split
  have hp : p = x + 16 := by
    rw [← hx]
    exact (beq_iff_eq.1 hbp).symm
  subst hp
  have hspre : span pre = span pre' + l := hdl.span_eq
  have hsize : l + sz + r = x + sz + r - (x - l) := by omega
  have hcs' : chunks g = pre' ++ (L ++ ⟨sz, true⟩ :: R) ++ post' := by
    simp [hcs, hpre, hpost]
  have hlo : x - l = g.base + 16 + span pre' := by omega
  rw [hsize, append_cons] at hs'
  obtain ⟨chunks', hinv, hbound, hiff, hsep⟩ := h.merge hg hcs' hlo (by omega)
    (show x + sz + r = x + sz + span R by omega) hLfree hRfree (by omega) (by omega) hs'
    (fun y hy => hframe y (by omega)) (fun y h1 h2 h3 h4 => hquiet y (by omega) h2 h3 h4) rfl
  have hlen : 1 ≤ s.live.length := length_pos_of_mem hb
  refine ⟨x, sz, _, m', chunks', rfl, ⟨g, hg, hmem⟩, hres, rfl, wadd_of_lt hbound, ?_, ?_, hinv,
    hiff, ?_⟩
  · simp only
    rw [h.count_eq, wsub_of_le (h.ledger.length_lt h.arena) hlen]
    omega
  · rw [HeapSystem.step, if_pos hheld, hres, Option.map_some]
  · intro y d hd hu hne z h1 h2
    refine hframe z ?_
    rcases hsep y d hd hu hne with hsep | hsep <;> omega

/-! ### New segments -/

/-- A new segment `[b, e)` apart from the others keeps the invariant. -/
theorem HeapInv.install {b e : Nat} (hb16 : b % 16 = 0) (he16 : e % 16 = 0) (hroom : b + 64 ≤ e)
    (he : e < 2 ^ 64) {regions : List Region} (hreg : ∀ r ∈ s.regions, r ∈ regions)
    (hnew : ∃ r ∈ regions, r.base ≤ b ∧ e ≤ r.endAddr)
    (hapart : ∀ g ∈ s.core.segments, g.Apart ⟨b, e⟩) :
    HeapInv { s with
        core := { s.core with
          segments := s.core.segments ++ [⟨b, e⟩]
          freeBytes := wadd s.core.freeBytes (e - b - 32) }
        mem := initMem s.mem b e
        regions } (Function.update chunks ⟨b, e⟩ [⟨e - b - 32, false⟩]) := by
  have hframe : ∀ x, x < b + 8 ∨ e ≤ x → initMem s.mem b e x = s.mem x :=
    fun x hx => initMem_apply s.mem hroom he hx
  have hne : ∀ g ∈ s.core.segments, g ≠ ⟨b, e⟩ := by
    rintro g hg rfl
    rcases hapart _ hg with h | h <;> simp only at h <;> omega
  generalize hchunks' : Function.update chunks ⟨b, e⟩ [⟨e - b - 32, false⟩] = chunks'
  have hself : chunks' ⟨b, e⟩ = [⟨e - b - 32, false⟩] := by rw [← hchunks', Function.update_self]
  have hother : ∀ g ∈ s.core.segments, chunks' g = chunks g := fun g hg => by
    rw [← hchunks', Function.update_of_ne (hne g hg)]
  have harena : Arena (initMem s.mem b e) (s.core.segments ++ [⟨b, e⟩]) chunks' := by
    refine ⟨fun g hg => ?_, pairwise_append.2 ⟨h.arena.apart, pairwise_singleton _ _,
      fun g hg g' hg' => ?_⟩⟩
    · rcases mem_append.1 hg with hg | hg
      · rw [hother g hg]
        refine (h.arena.seg g hg).congr fun x h1 h2 => hframe x ?_
        rcases hapart g hg with h | h <;> simp only at h <;> omega
      · rw [mem_singleton.1 hg, hself]
        exact ⟨hb16, he16, hroom, he, initMem_prologue s.mem hroom he,
          initMem_fenced s.mem hroom he hb16 he16⟩
    · rw [mem_singleton.1 hg']
      exact hapart g hg
  -- the chunks are the old ones and a free one that fills the segment
  have hplaced : ∀ x c, PlacedIn (s.core.segments ++ [⟨b, e⟩]) chunks' x c ↔
      PlacedIn s.core.segments chunks x c ∨ (x = b + 16 ∧ c = ⟨e - b - 32, false⟩) := by
    intro x c
    constructor
    · rintro ⟨g, hg, hmem⟩
      rcases mem_append.1 hg with hg | hg
      · rw [hother g hg] at hmem
        exact Or.inl ⟨g, hg, hmem⟩
      · rw [mem_singleton.1 hg, hself] at hmem
        simp only [placed, mem_cons, not_mem_nil, or_false, Prod.mk.injEq] at hmem
        exact Or.inr hmem
    · rintro (⟨g, hg, hmem⟩ | ⟨rfl, rfl⟩)
      · exact ⟨g, mem_append_left _ hg, by rw [hother g hg]; exact hmem⟩
      · exact ⟨⟨b, e⟩, by simp, by rw [hself]; simp [placed]⟩
  have hsum : ((s.core.segments ++ [(⟨b, e⟩ : Segment)]).map fun g => freeSpan (chunks' g)).sum
      = (s.core.segments.map fun g => freeSpan (chunks g)).sum + (e - b - 32) := by
    rw [map_append, sum_append, map_congr_left fun g hg => by rw [hother g hg]]
    simp [hself, freeSpan]
  have hbound := harena.freeSum_lt
  rw [hsum] at hbound
  refine ⟨harena, fun g hg => ?_, ?_, h.count_eq, h.no_violation, ?_⟩
  · rcases mem_append.1 hg with hg | hg
    · obtain ⟨r, hr, hin⟩ := h.within g hg
      exact ⟨r, hreg r hr, hin⟩
    · rw [mem_singleton.1 hg]
      exact hnew
  · simp only [h.free_eq, hsum]
    exact wadd_of_lt hbound
  · refine h.ledger.grow h.arena.sound (fun x c hc => (hplaced x c).2 (Or.inl hc))
      (fun x c hc hused => ?_) fun x c hc _ y h1 h2 => hframe y ?_
    · rcases (hplaced x c).1 hc with hc | ⟨-, rfl⟩
      · exact hc
      · simp at hused
    · obtain ⟨g, hg, hmem⟩ := hc
      have hfacts := h.arena.placed_facts hg hmem
      rcases hapart g hg with h | h <;> simp only at h <;> omega

theorem HeapInv.addRegion (r : Region) : HeapInv { s with regions := r :: s.regions } chunks := by
  refine ⟨h.arena, fun g hg => ?_, h.free_eq, h.count_eq, h.no_violation, h.ledger⟩
  obtain ⟨r', hr', hin⟩ := h.within g hg
  exact ⟨r', mem_cons_of_mem _ hr', hin⟩

/-- `init_region` keeps the invariant, away from the top of the address space. -/
theorem HeapInv.initRegion {base endAddr : Nat} (hok : s.BelowTop (.initRegion base endAddr))
    (hstep : s.step (.initRegion base endAddr) = some s') : ∃ chunks', HeapInv s' chunks' := by
  rw [HeapSystem.step] at hstep
  by_cases hlegal : base < 2 ^ 64 ∧ endAddr < 2 ^ 64 ∧
      s.regions.all (·.disjoint ⟨base, endAddr⟩) = true
  · rw [if_pos hlegal, Option.some.injEq] at hstep
    obtain ⟨-, hend, hall⟩ := hlegal
    subst hstep
    by_cases hfull : MAX_SEGMENTS ≤ s.core.segments.length
    · have hsame : s.core.initRegion s.mem base endAddr = (s.core, s.mem) := by
        rw [HeapCore.initRegion, if_pos hfull]
      rw [hsame]
      exact ⟨chunks, h.addRegion _⟩
    · have hbase := hok.resolve_left hfull
      rw [initRegion_eq s.core s.mem (by omega) hbase hend]
      by_cases htiny : endAddr / 16 * 16 < (base + 15) / 16 * 16 + 64
      · rw [if_pos htiny]
        exact ⟨chunks, h.addRegion _⟩
      · rw [if_neg htiny]
        refine ⟨_, h.install (by omega) (by omega) (by omega) (by omega)
          (fun r hr => mem_cons_of_mem _ hr)
          ⟨_, mem_cons_self, by simp only; omega, by simp only; omega⟩ fun g hg => ?_⟩
        -- the regions are disjoint, and a segment lies inside its region
        obtain ⟨r, hr, hin⟩ := h.within g hg
        have hdisj := all_eq_true.1 hall r hr
        have hgroom := (h.arena.seg g hg).room
        simp only [Region.disjoint, Bool.or_eq_true, decide_eq_true_eq] at hdisj
        rw [Segment.Apart]
        simp only
        omega
  · rw [if_neg hlegal] at hstep
    simp at hstep

end

/-! ### Runs -/

/-- **One step.** Every operation that keeps away from the top of the address space preserves the
invariant. -/
theorem HeapInv.step (h : HeapInv s chunks) {op : HeapOp} (hok : s.BelowTop op)
    (hstep : s.Steps op s') : ∃ chunks', HeapInv s' chunks' := by
  cases op with
  | initRegion base endAddr => exact h.initRegion hok hstep
  | alloc layout =>
    rw [HeapSystem.Steps] at hstep
    rcases h.alloc_cases layout with ⟨_, -, -, -, hres, hinv⟩ |
      ⟨_, _, _, _, chunks', -, -, -, -, -, -, hres, hinv, -⟩
    · rw [hres, Option.some.injEq] at hstep
      exact ⟨chunks, hstep ▸ hinv⟩
    · rw [hres, Option.some.injEq] at hstep
      exact ⟨chunks', hstep ▸ hinv⟩
  | dealloc p =>
    rw [HeapSystem.Steps] at hstep
    by_cases hheld : s.holds p = true
    · obtain ⟨_, _, _, _, chunks', -, -, -, -, -, -, hres, hinv, -⟩ := h.dealloc_cases hheld
      rw [hres, Option.some.injEq] at hstep
      exact ⟨chunks', hstep ▸ hinv⟩
    · rw [HeapSystem.step, if_neg hheld] at hstep
      simp at hstep
  | write a v =>
    rw [HeapSystem.Steps, HeapSystem.step] at hstep
    by_cases ha : s.inPayload a = true
    · rw [if_pos ha, Option.some.injEq] at hstep
      subst hstep
      exact ⟨chunks, h.write v ha⟩
    · rw [if_neg ha] at hstep
      simp at hstep

/-- **Runs.** The invariant holds in every state reached by operations that keep away from the top
of the address space. -/
theorem heapInv_of_reachable (h : s.ReachableBelowTop) : ∃ chunks, HeapInv s chunks := by
  refine Reach.invariant (P := fun s => ∃ chunks, HeapInv s chunks) ?_ ?_ h
  · rintro s ⟨m, rfl⟩
    exact ⟨_, heapInv_start m⟩
  · rintro s op s' ⟨chunks, hinv⟩ hok hstep
    exact hinv.step hok hstep

end Steps

end PlanckOS.Heap
