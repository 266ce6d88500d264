import PlanckOS.Heap.Safety

/-!
# The chunk walks on arbitrary memory

`alloc`, the forward coalescing of `dealloc` and `check_invariants` follow the size words from
chunk to chunk. Their guards reject sizes below 32 and sizes that are no multiple of 16, and accept
every other 64-bit word; the address after a chunk is computed with wrapping arithmetic.

Nothing is assumed of the memory here. A walk climbs, and ends, exactly when no chunk it goes on
from reaches past the end of the address space (`walks_climb_iff`). When one does, `alloc` and
`check_invariants` can go round for ever (`walks_go_round`); `dealloc` returns on every memory, as
it wipes each header it absorbs (`dealloc_returns`).

`check_invariants` accepts memory that its documentation rules out, since the first chunk's
`PREV_IN_USE` bit is never read, the epilogue's only after a free chunk, and the bounds test wraps.
`accepted_documented_iff` says that these are the only gaps.
-/

set_option autoImplicit false

namespace PlanckOS.Heap

open Lib.Word Lib.ByteMemory Lib.Loop Lib.Tiling

variable {m : Mem} {c a e n : Nat}

/-! ## Chunks linked by their sizes -/

/-- The size of the chunk at `c` passes the guards of the walks. -/
def Sane (m : Mem) (c : Nat) : Prop :=
  MIN_CHUNK ≤ sizeOf m c ∧ sizeOf m c % CHUNK_ALIGN = 0
  deriving Decidable

/-- The header at `c` says that its chunk is free. -/
def FreeAt (m : Mem) (c : Nat) : Prop := flagsOf m c &&& IN_USE = 0
  deriving Decidable

/-- The header at `c` says that the chunk before it is in use. -/
def PrevUsedAt (m : Mem) (c : Nat) : Prop := flagsOf m c &&& PREV_IN_USE ≠ 0
  deriving Decidable

/-- `c` is reached from `a` along the size words of chunks that satisfy `P`. -/
def Linked (m : Mem) (P : Nat → Prop) : Nat → Nat → Prop :=
  Relation.ReflTransGen fun c c' => P c ∧ c' = wadd c (sizeOf m c)

/-- No chunk that satisfies `P` and is linked to `a` by such chunks reaches past the end of the
address space. -/
def NoWrap (m : Mem) (P : Nat → Prop) (a : Nat) : Prop :=
  ∀ c, Linked m P a c → P c → c + sizeOf m c < 2 ^ 64

/-- The first-fit walk goes on from `c`. -/
def FitGoesOn (m : Mem) (needed epilogue c : Nat) : Prop :=
  c < epilogue ∧ Sane m c ∧ ¬ (FreeAt m c ∧ needed ≤ sizeOf m c)

/-- Forward coalescing goes on from `c`. -/
def AbsorbGoesOn (m : Mem) (epilogue c : Nat) : Prop :=
  c < epilogue ∧ FreeAt m c ∧ Sane m c

/-- The flags and the footer behind the chunk at `c` pass the tests of `check_invariants`, `next`
being the address of the header there. -/
def NextFits (m : Mem) (epilogue c next : Nat) : Prop :=
  (FreeAt m c → prevSizeOf m next = sizeOf m c ∧ ¬ PrevUsedAt m next ∧
    (next < epilogue → ¬ FreeAt m next)) ∧
  (¬ FreeAt m c → next < epilogue → PrevUsedAt m next)

/-- The validation walk goes on from `c`. -/
def CheckGoesOn (m : Mem) (epilogue c : Nat) : Prop :=
  c < epilogue ∧ Sane m c ∧ wadd c (sizeOf m c) ≤ epilogue ∧
    NextFits m epilogue c (wadd c (sizeOf m c))

theorem sizeOf_lt (m : Mem) (c : Nat) : sizeOf m c < 2 ^ 64 :=
  Nat.lt_of_le_of_lt Nat.and_le_left (readWord_lt m _)

theorem sane_iff : Sane m c ↔ ¬ (sizeOf m c < MIN_CHUNK ∨ sizeOf m c % CHUNK_ALIGN ≠ 0) := by
  rw [Sane]
  omega

/-- The address after a chunk is larger exactly when it does not wrap. -/
theorem lt_wadd_iff {b : Nat} (ha : a < 2 ^ 64) (hpos : 0 < b) (hb : b < 2 ^ 64) :
    a < wadd a b ↔ a + b < 2 ^ 64 := by
  rw [wadd]
  omega

/-! ## Walks that only read -/

/-- The body goes from a chunk to the next one exactly at the chunks that satisfy `P`. -/
structure Follows {β : Type} (m : Mem) (P : Nat → Prop) (body : Nat → Flow Nat β) : Prop where
  goes : ∀ c, P c → body c = .next (wadd c (sizeOf m c))
  stops : ∀ c, ¬ P c → ∃ r, body c = .done r
  pos : ∀ c, P c → 0 < sizeOf m c

section Follow

variable {β : Type} {P : Nat → Prop} {body : Nat → Flow Nat β} {c' needed : Nat}

theorem Follows.next_iff (h : Follows m P body) :
    body c = .next c' ↔ P c ∧ c' = wadd c (sizeOf m c) := by
  by_cases hc : P c
  · simp [h.goes c hc, hc, eq_comm]
  · obtain ⟨r, hr⟩ := h.stops c hc
    simp [hr, hc]

theorem Follows.visits_iff (h : Follows m P body) : Visits body a c ↔ Linked m P a c := by
  have hrel : (fun c c' => body c = .next c') = fun c c' => P c ∧ c' = wadd c (sizeOf m c) := by
    funext c c'
    exact propext h.next_iff
  rw [Visits, Linked, hrel]

theorem Linked.lt (h : Linked m P a c) (ha : a < 2 ^ 64) : c < 2 ^ 64 := by
  cases h with
  | refl => exact ha
  | tail _ hstep =>
    rw [hstep.2]
    exact wadd_lt _ _

/-- **A reading walk climbs and ends exactly when no size on its way wraps.** -/
theorem Follows.climbs_iff (h : Follows m P body) (ha : a < 2 ^ 64) :
    (Ascends body id a ∧ (loop body WALK_BOUND a).isSome = true) ↔ NoWrap m P a := by
  have hup : Ascends body id a ↔ NoWrap m P a := by
    constructor
    · intro hasc c hc hP
      have hlt := hasc c _ (h.visits_iff.2 hc) (h.goes c hP)
      exact (lt_wadd_iff (hc.lt ha) (h.pos c hP) (sizeOf_lt m c)).1 hlt
    · intro hno c c' hc hnext
      obtain ⟨hP, rfl⟩ := h.next_iff.1 hnext
      have hlinked := h.visits_iff.1 hc
      exact (lt_wadd_iff (hlinked.lt ha) (h.pos c hP) (sizeOf_lt m c)).2 (hno c hlinked hP)
  refine ⟨fun hboth => hup.1 hboth.1, fun hno => ⟨hup.2 hno, ?_⟩⟩
  obtain ⟨b, hb⟩ := (hup.2 hno).loop_ends (N := 2 ^ 64) (n := WALK_BOUND)
    (fun c hc => (h.visits_iff.1 hc).lt ha) (by rw [walkBound_eq]; omega)
  rw [hb, Option.isSome_some]

theorem fitStep_follows (m : Mem) (needed e : Nat) :
    Follows m (FitGoesOn m needed e) (HeapCore.fitStep m needed e) where
  goes := by
    rintro c ⟨hlt, hsane, hfit⟩
    simp only [HeapCore.fitStep, if_pos hlt, if_neg (sane_iff.1 hsane)]
    exact if_neg hfit
  stops := by
    intro c hc
    rw [HeapCore.fitStep]
    split
    · next hlt =>
      dsimp only
      split
      · exact ⟨_, rfl⟩
      · next hsane =>
        split
        · exact ⟨_, rfl⟩
        · next hfit => exact absurd ⟨hlt, sane_iff.2 hsane, hfit⟩ hc
    · exact ⟨_, rfl⟩
  pos := fun c hc => Nat.lt_of_lt_of_le (by decide) hc.2.1.1

theorem checkStep_follows (m : Mem) (e : Nat) :
    Follows m (CheckGoesOn m e) (HeapCore.checkStep m e) where
  goes := by
    rintro c ⟨hlt, hsane, hle, hfits⟩
    simp only [HeapCore.checkStep, if_neg (Nat.not_le.2 hlt), if_neg (sane_iff.1 hsane),
      if_neg (Nat.not_lt.2 hle)]
    generalize wadd c (sizeOf m c) = next at hfits
    simp only [NextFits, FreeAt, PrevUsedAt] at hfits
    split_ifs <;> simp_all
  stops := by
    intro c hc
    rw [CheckGoesOn, not_and, sane_iff] at hc
    rw [HeapCore.checkStep]
    split
    · exact ⟨_, rfl⟩
    · next hlt =>
      dsimp only
      split
      · exact ⟨_, rfl⟩
      · next hsane =>
        split
        · exact ⟨_, rfl⟩
        · next hle =>
          have hbad : ¬ NextFits m e c (wadd c (sizeOf m c)) := fun hfits =>
            hc (Nat.not_le.1 hlt) ⟨hsane, Nat.not_lt.1 hle, hfits⟩
          generalize wadd c (sizeOf m c) = next at hbad
          simp only [NextFits, FreeAt, PrevUsedAt] at hbad
          split_ifs <;> simp_all
  pos := fun c hc => Nat.lt_of_lt_of_le (by decide) hc.2.1.1

end Follow

/-! ## Forward coalescing -/

section Absorb

variable {t t' : Nat × Nat × Mem} {k : Nat}

theorem sizeOf_congr {m' : Mem} (hk : k + 16 ≤ 2 ^ 64)
    (hag : ∀ x, k + 8 ≤ x → x < k + 16 → m' x = m x) : sizeOf m' k = sizeOf m k := by
  rw [sizeOf_eq hk, sizeOf_eq hk, readWord_congr fun x h1 h2 => hag x h1 (by omega)]

theorem absorbStep_next_iff : HeapCore.absorbStep e t = .next t' ↔ AbsorbGoesOn t.2.2 e t.1 ∧
      t' = (wadd t.1 (sizeOf t.2.2 t.1), wadd t.2.1 (sizeOf t.2.2 t.1),
        setHeader t.2.2 t.1 0 0) := by
  obtain ⟨k, spanSize, m'⟩ := t
  simp only [AbsorbGoesOn, HeapCore.absorbStep, sane_iff, FreeAt]
  by_cases hfree : k < e ∧ flagsOf m' k &&& IN_USE = 0
  · by_cases hsane : sizeOf m' k < MIN_CHUNK ∨ sizeOf m' k % CHUNK_ALIGN ≠ 0
    · simp only [if_pos hfree, if_pos hsane, reduceCtorEq, false_iff]
      exact fun hall => hall.1.2.2 hsane
    · simp only [if_pos hfree, if_neg hsane, Flow.next.injEq]
      exact ⟨fun h => ⟨⟨hfree.1, hfree.2, hsane⟩, h.symm⟩, fun h => h.2.symm⟩
  · simp only [if_neg hfree, reduceCtorEq, false_iff]
    exact fun hall => hfree ⟨hall.1.1, hall.1.2.1⟩

/-- The state of forward coalescing has wiped headers of `m` only below its own address. -/
structure Ahead (m : Mem) (t : Nat × Nat × Mem) : Prop where
  mod : t.1 % 16 = 0
  lt : t.1 < 2 ^ 64
  agree : ∀ x, t.1 ≤ x → t.2.2 x = m x

theorem Ahead.size_eq (h : Ahead m t) : sizeOf t.2.2 t.1 = sizeOf m t.1 := by
  have hmod := h.mod
  have hlt := h.lt
  exact sizeOf_congr (by omega) fun x h1 _ => h.agree x (by omega)

theorem Ahead.goesOn_iff (h : Ahead m t) : AbsorbGoesOn t.2.2 e t.1 ↔ AbsorbGoesOn m e t.1 := by
  have hmod := h.mod
  have hlt := h.lt
  have hflags : flagsOf t.2.2 t.1 = flagsOf m t.1 :=
    flagsOf_congr (by omega) fun x h1 _ => h.agree x (by omega)
  rw [AbsorbGoesOn, AbsorbGoesOn, FreeAt, FreeAt, Sane, Sane, hflags, h.size_eq]

/-- A round that does not wrap stays ahead of the headers it wipes. -/
theorem Ahead.next (h : Ahead m t) (hgo : AbsorbGoesOn m e t.1)
    (hfit : t.1 + sizeOf m t.1 < 2 ^ 64) (hnext : HeapCore.absorbStep e t = .next t') :
    Ahead m t' ∧ t'.1 = wadd t.1 (sizeOf m t.1) := by
  obtain ⟨-, rfl⟩ := absorbStep_next_iff.1 hnext
  have hsize := hgo.2.2
  have hmod := h.mod
  simp only [Sane, MIN_CHUNK, CHUNK_ALIGN] at hsize
  refine ⟨⟨?_, wadd_lt _ _, fun x hx => ?_⟩, by rw [h.size_eq]⟩
  · simp only [h.size_eq, wadd]
    omega
  · simp only [h.size_eq, wadd_of_lt hfit] at hx
    simp only
    rw [setHeader_apply (by omega)]
    exact h.agree x (by omega)

/-- **Forward coalescing climbs and ends exactly when no size on its way wraps.** -/
theorem absorb_climbs_iff {spanSize : Nat} (hmod : n % 16 = 0) (hlt : n < 2 ^ 64) :
    (Ascends (HeapCore.absorbStep e) Prod.fst (n, spanSize, m) ∧
      (loop (HeapCore.absorbStep e) WALK_BOUND (n, spanSize, m)).isSome = true) ↔
      NoWrap m (AbsorbGoesOn m e) n := by
  have hstart : Ahead m (n, spanSize, m) := ⟨hmod, hlt, fun _ _ => rfl⟩
  constructor
  · -- the walk comes to every linked chunk, ahead of the headers it wiped
    rintro ⟨hasc, -⟩
    have hfits : ∀ t, Visits (HeapCore.absorbStep e) (n, spanSize, m) t → Ahead m t →
        AbsorbGoesOn m e t.1 → t.1 + sizeOf m t.1 < 2 ^ 64 := by
      intro t hv hahead hgo
      have hlt' := hasc t _ hv (absorbStep_next_iff.2 ⟨hahead.goesOn_iff.2 hgo, rfl⟩)
      simp only [hahead.size_eq] at hlt'
      exact (lt_wadd_iff hahead.lt (Nat.lt_of_lt_of_le (by decide) hgo.2.2.1)
        (sizeOf_lt m _)).1 hlt'
    have hcomes : ∀ c, Linked m (AbsorbGoesOn m e) n c → ∃ t, t.1 = c ∧ Ahead m t ∧
        Visits (HeapCore.absorbStep e) (n, spanSize, m) t := by
      intro c hc
      induction hc with
      | refl => exact ⟨_, rfl, hstart, .refl⟩
      | tail _ hstep ih =>
        obtain ⟨t, rfl, hahead, hv⟩ := ih
        obtain ⟨hgo, rfl⟩ := hstep
        have hnext := absorbStep_next_iff.2 ⟨hahead.goesOn_iff.2 hgo, rfl⟩
        obtain ⟨hahead', heq⟩ := hahead.next hgo (hfits t hv hahead hgo) hnext
        exact ⟨_, heq, hahead', hv.tail hnext⟩
    intro c hc hgo
    obtain ⟨t, rfl, hahead, hv⟩ := hcomes c hc
    exact hfits t hv hahead hgo
  · -- every state visited is at a linked chunk, ahead of the headers wiped
    intro hno
    have hvisited : ∀ t, Visits (HeapCore.absorbStep e) (n, spanSize, m) t →
        Ahead m t ∧ Linked m (AbsorbGoesOn m e) n t.1 := by
      intro t hv
      induction hv with
      | refl => exact ⟨hstart, .refl⟩
      | tail _ hnext ih =>
        obtain ⟨hahead, hlinked⟩ := ih
        have hgo := hahead.goesOn_iff.1 (absorbStep_next_iff.1 hnext).1
        obtain ⟨hahead', heq⟩ := hahead.next hgo (hno _ hlinked hgo) hnext
        exact ⟨hahead', hlinked.tail ⟨hgo, heq⟩⟩
    have hasc : Ascends (HeapCore.absorbStep e) Prod.fst (n, spanSize, m) := by
      intro t t' hv hnext
      obtain ⟨hahead, hlinked⟩ := hvisited t hv
      have hgo := hahead.goesOn_iff.1 (absorbStep_next_iff.1 hnext).1
      have hfit := hno _ hlinked hgo
      rw [(hahead.next hgo hfit hnext).2]
      exact (lt_wadd_iff hahead.lt (Nat.lt_of_lt_of_le (by decide) hgo.2.2.1)
        (sizeOf_lt m _)).2 hfit
    obtain ⟨b, hb⟩ := hasc.loop_ends (N := 2 ^ 64) (n := WALK_BOUND)
      (fun t hv => (hvisited t hv).1.lt) (by rw [walkBound_eq]; omega)
    exact ⟨hasc, by rw [hb, Option.isSome_some]⟩

/-- The headers at multiples of 16 that are not wiped. -/
def unwiped (m : Mem) (N : Nat) : Finset Nat :=
  (Finset.range N).filter fun i => sizeOf m (16 * i) ≠ 0

theorem unwiped_setHeader {N : Nat} (hmod : k % 16 = 0) (hk : k < 16 * N) (hN : 16 * N ≤ 2 ^ 64)
    (hne : sizeOf m k ≠ 0) : (unwiped (setHeader m k 0 0) N).card < (unwiped m N).card := by
  refine Finset.card_lt_card (Finset.ssubset_iff_of_subset (fun i hi => ?_) |>.2
    ⟨k / 16, ?_, ?_⟩)
  · obtain ⟨hi, hsize⟩ := Finset.mem_filter.1 hi
    have hiN := Finset.mem_range.1 hi
    refine Finset.mem_filter.2 ⟨hi, ?_⟩
    by_cases hik : 16 * i = k
    · rw [hik]
      exact hne
    · rwa [sizeOf_congr (by omega) fun x h1 h2 => setHeader_apply (by omega)] at hsize
  · refine Finset.mem_filter.2 ⟨Finset.mem_range.2 (by omega), ?_⟩
    rwa [show 16 * (k / 16) = k by omega]
  · rw [unwiped, Finset.mem_filter, show 16 * (k / 16) = k by omega,
      sizeOf_setHeader m (by omega) rfl (by decide) (by decide)]
    exact fun hall => hall.2 rfl

/-- Forward coalescing ends on every memory: each round wipes one more header. -/
theorem absorb_ends (m : Mem) (e spanSize : Nat) (hmod : n % 16 = 0) (hlt : n < 2 ^ 64) :
    ∃ r, loop (HeapCore.absorbStep e) WALK_BOUND (n, spanSize, m) = some r := by
  have haligned : ∀ t, Visits (HeapCore.absorbStep e) (n, spanSize, m) t →
      t.1 % 16 = 0 ∧ t.1 < 2 ^ 64 := by
    intro t hv
    induction hv with
    | refl => exact ⟨hmod, hlt⟩
    | tail _ hnext ih =>
      obtain ⟨hgo, rfl⟩ := absorbStep_next_iff.1 hnext
      have hsize := hgo.2.2.2
      simp only [CHUNK_ALIGN] at hsize
      refine ⟨?_, wadd_lt _ _⟩
      simp only [wadd]
      omega
  refine loop_of_decreasing (fun t => (unwiped t.2.2 (2 ^ 60)).card) (fun t t' hv hnext => ?_) ?_
  · obtain ⟨hgo, rfl⟩ := absorbStep_next_iff.1 hnext
    obtain ⟨hm, hl⟩ := haligned t hv
    have hpos : 32 ≤ sizeOf t.2.2 t.1 := hgo.2.2.1
    exact unwiped_setHeader hm (by omega) (by omega) (by omega)
  · have hcard := (Finset.card_filter_le (Finset.range (2 ^ 60)) fun i => sizeOf m (16 * i) ≠ 0)
    rw [Finset.card_range] at hcard
    rw [walkBound_eq]
    exact Nat.lt_of_le_of_lt hcard (by norm_num)

end Absorb

/-! ## The walks of the allocator -/

/-- The address of the first chunk. -/
abbrev Segment.first (g : Segment) : Nat := wadd g.base PROLOGUE_SIZE

/-- The address of the epilogue. -/
abbrev Segment.epilogue (g : Segment) : Nat := wsub g.endAddr EPILOGUE_SIZE

/-- **When the chunk walks climb and end.** On every memory, the first-fit walk of `alloc`, the
forward walk of `dealloc` from the end of an aligned chunk, and the walk of `check_invariants` visit
strictly increasing addresses and end exactly when no chunk they go on from reaches past the end of
the address space. -/
theorem walks_climb_iff (m : Mem) (g : Segment) :
    (∀ needed, (Ascends (HeapCore.fitStep m needed g.epilogue) id g.first ∧
      (HeapCore.findFit m needed g).isSome = true) ↔
        NoWrap m (FitGoesOn m needed g.epilogue) g.first) ∧
    (∀ i j spanSize, (Ascends (HeapCore.absorbStep g.epilogue) Prod.fst
          (wadd (CHUNK_ALIGN * i) (CHUNK_ALIGN * j), spanSize, m) ∧
        (loop (HeapCore.absorbStep g.epilogue) WALK_BOUND
          (wadd (CHUNK_ALIGN * i) (CHUNK_ALIGN * j), spanSize, m)).isSome = true) ↔
        NoWrap m (AbsorbGoesOn m g.epilogue) (wadd (CHUNK_ALIGN * i) (CHUNK_ALIGN * j))) ∧
    ((Ascends (HeapCore.checkStep m g.epilogue) id g.first ∧
      (loop (HeapCore.checkStep m g.epilogue) WALK_BOUND g.first).isSome = true) ↔
        NoWrap m (CheckGoesOn m g.epilogue) g.first) := by
  refine ⟨fun needed => (fitStep_follows m needed _).climbs_iff (wadd_lt _ _),
    fun i j spanSize => absorb_climbs_iff ?_ (wadd_lt _ _),
    (checkStep_follows m _).climbs_iff (wadd_lt _ _)⟩
  simp only [wadd, CHUNK_ALIGN]
  omega

/-- A segment whose second chunk has the size `2 ^ 64 - 32`: the chunk after it is the first one. -/
def roundMem : Mem :=
  setHeader (setHeader (setHeader (fun _ => 0) 4096 16 3) 4112 32 3) 4144 (2 ^ 64 - 32) 3

/-- The heap with the segment `[4096, 8192)`. -/
def roundHeap : HeapCore := { HeapCore.new with segments := [⟨4096, 8192⟩] }

/-- On `roundMem` the walks of `alloc` and of `check_invariants` go round for ever, whatever the
number of rounds, so neither function returns. -/
theorem walks_go_round : (∀ n, loop (HeapCore.fitStep roundMem 32 8176) n 4112 = none ∧
      loop (HeapCore.checkStep roundMem 8176) n 4112 = none) ∧
    ¬ Ascends (HeapCore.fitStep roundMem 32 8176) id 4112 ∧
    roundHeap.alloc roundMem (byteLayout 16) = none ∧
    roundHeap.checkInvariants roundMem = none := by
  have hs₁ : sizeOf roundMem 4112 = 32 := by decide +kernel
  have hs₂ : sizeOf roundMem 4144 = 2 ^ 64 - 32 := by decide +kernel
  have hf₁ : flagsOf roundMem 4112 = 3 := by decide +kernel
  have hf₂ : flagsOf roundMem 4144 = 3 := by decide +kernel
  have hfit₁ : HeapCore.fitStep roundMem 32 8176 4112 = .next 4144 :=
    (fitStep_follows _ _ _).next_iff.2
      ⟨by simp [FitGoesOn, Sane, FreeAt, hs₁, hf₁, MIN_CHUNK, CHUNK_ALIGN, IN_USE],
        by rw [hs₁]; rfl⟩
  have hfit₂ : HeapCore.fitStep roundMem 32 8176 4144 = .next 4112 :=
    (fitStep_follows _ _ _).next_iff.2
      ⟨by simp [FitGoesOn, Sane, FreeAt, hs₂, hf₂, MIN_CHUNK, CHUNK_ALIGN, IN_USE],
        by rw [hs₂]; rfl⟩
  have hcheck₁ : HeapCore.checkStep roundMem 8176 4112 = .next 4144 := by
    refine (checkStep_follows _ _).next_iff.2 ⟨?_, by rw [hs₁]; rfl⟩
    have hnext : wadd 4112 32 = 4144 := rfl
    simp [CheckGoesOn, NextFits, Sane, FreeAt, PrevUsedAt, hs₁, hf₁, hnext, hf₂, MIN_CHUNK,
      CHUNK_ALIGN, IN_USE, PREV_IN_USE]
  have hcheck₂ : HeapCore.checkStep roundMem 8176 4144 = .next 4112 := by
    refine (checkStep_follows _ _).next_iff.2 ⟨?_, by rw [hs₂]; rfl⟩
    have hnext : wadd 4144 (2 ^ 64 - 32) = 4112 := rfl
    rw [CheckGoesOn, NextFits, hs₂, hnext]
    simp [Sane, FreeAt, PrevUsedAt, hs₂, hf₁, hf₂, MIN_CHUNK, CHUNK_ALIGN, IN_USE, PREV_IN_USE]
  have hround : ∀ n, loop (HeapCore.fitStep roundMem 32 8176) n 4112 = none ∧
      loop (HeapCore.checkStep roundMem 8176) n 4112 = none := by
    intro n
    constructor
    · refine loop_eq_none_of_closed (P := fun c => c = 4112 ∨ c = 4144) ?_ (Or.inl rfl) n
      rintro c (rfl | rfl)
      exacts [⟨_, hfit₁, Or.inr rfl⟩, ⟨_, hfit₂, Or.inl rfl⟩]
    · refine loop_eq_none_of_closed (P := fun c => c = 4112 ∨ c = 4144) ?_ (Or.inl rfl) n
      rintro c (rfl | rfl)
      exacts [⟨_, hcheck₁, Or.inr rfl⟩, ⟨_, hcheck₂, Or.inl rfl⟩]
  refine ⟨hround, fun hasc => ?_, ?_, ?_⟩
  · exact absurd (hasc 4144 4112 (.tail .refl hfit₁) hfit₂) (by decide)
  · have hneeded : HeapCore.neededSize (byteLayout 16) = some 32 := by decide
    have hwalk : HeapCore.findFit roundMem 32 ⟨4096, 8192⟩ = none := (hround WALK_BOUND).1
    have hfind : HeapCore.findChunk roundMem 32 roundHeap.segments = none := by
      rw [roundHeap, HeapCore.findChunk, hwalk, Option.bind_none]
    rw [HeapCore.alloc, if_neg (by decide), hneeded]
    simp only [hfind, Option.map_none]
  · have hpro : ¬ (sizeOf roundMem 4096 ≠ PROLOGUE_SIZE ∨
        flagsOf roundMem 4096 &&& (IN_USE ||| PREV_IN_USE) ≠ (IN_USE ||| PREV_IN_USE)) := by
      decide +kernel
    have hwalk : loop (HeapCore.checkStep roundMem 8176) WALK_BOUND 4112 = none :=
      (hround WALK_BOUND).2
    have hseg : HeapCore.checkSegment roundMem ⟨4096, 8192⟩ = none := by
      rw [HeapCore.checkSegment]
      simp only [if_neg hpro]
      exact Option.map_eq_none_iff.2 hwalk
    rw [HeapCore.checkInvariants, roundHeap, HeapCore.checkSegments, hseg, Option.bind_none]

/-- **`dealloc` returns on every memory.** -/
theorem dealloc_returns (h : HeapCore) (m : Mem) (p : Nat) : ∃ r, h.dealloc m p = some r := by
  rw [HeapCore.dealloc]
  split_ifs with hnull hmod
  · exact ⟨_, rfl⟩
  · exact ⟨_, rfl⟩
  · dsimp only
    split
    · exact ⟨_, rfl⟩
    · next seg hseg =>
      split_ifs with hfree hsize
      · exact ⟨_, rfl⟩
      · exact ⟨_, rfl⟩
      · split
        · exact ⟨_, rfl⟩
        · next span spanSize m' hback =>
          have haligned : wadd (wsub p HEADER_SIZE) (sizeOf m (wsub p HEADER_SIZE)) % 16 = 0 := by
            rw [not_or, ne_eq, not_not] at hsize
            rw [ne_eq, not_not] at hmod
            obtain ⟨hmod', -⟩ := hsize
            generalize sizeOf m (wsub p HEADER_SIZE) = sz at hmod'
            simp only [CHUNK_ALIGN, HEADER_SIZE, wadd, wsub] at *
            omega
          obtain ⟨r, hr⟩ := absorb_ends m' (wsub seg.endAddr EPILOGUE_SIZE) spanSize haligned
            (wadd_lt _ _)
          rw [HeapCore.mergeForward, hr]
          exact ⟨_, rfl⟩

/-! ## What `check_invariants` misses -/

/-- What the documentation of `check_invariants` lists, for the segment `g` with the chunks `cs`:
sentinels present and in use, sane sizes, an exact tiling, free chunks with a matching footer and no
free successor, and at every header the `PREV_IN_USE` bit of the chunk before. -/
structure Documented (m : Mem) (g : Segment) (cs : List Cell) : Prop where
  prologue : sizeOf m g.base = PROLOGUE_SIZE ∧ ¬ FreeAt m g.base
  epilogue : sizeOf m (g.endAddr - 16) = EPILOGUE_SIZE ∧ ¬ FreeAt m (g.endAddr - 16)
  tiles : g.base + 16 + span cs = g.endAddr - 16
  header : ∀ x c, (x, c) ∈ placed (g.base + 16) cs →
    sizeOf m x = c.size ∧ (c.used = true ↔ ¬ FreeAt m x)
  sane : ∀ c ∈ cs, 32 ≤ c.size ∧ c.size % 16 = 0
  free : ∀ x c, (x, c) ∈ placed (g.base + 16) cs → c.used = false →
    prevSizeOf m (x + c.size) = c.size ∧ ¬ FreeAt m (x + c.size)
  prev_first : PrevUsedAt m (g.base + 16)
  prev_next : ∀ x c, (x, c) ∈ placed (g.base + 16) cs → (PrevUsedAt m (x + c.size) ↔ c.used = true)

/-- What the walk does not test: the `PREV_IN_USE` bit of the first chunk, that of the epilogue
after a chunk in use, and that the sizes on its way do not wrap. -/
structure Untested (m : Mem) (g : Segment) : Prop where
  first : PrevUsedAt m (g.base + 16)
  last : ∀ c, Linked m (CheckGoesOn m (g.endAddr - 16)) (g.base + 16) c →
    CheckGoesOn m (g.endAddr - 16) c → c + sizeOf m c = g.endAddr - 16 → ¬ FreeAt m c →
    PrevUsedAt m (g.endAddr - 16)
  noWrap : NoWrap m (CheckGoesOn m (g.endAddr - 16)) (g.base + 16)

/-- The chunk at `a` as its header shows it. -/
def cellAt (m : Mem) (a : Nat) : Cell := ⟨sizeOf m a, decide (¬ FreeAt m a)⟩

/-- The validation walk passes the chunks `cs` from `a` and arrives at `e`. -/
def Passes (m : Mem) (e : Nat) : Nat → List Cell → Prop
  | a, [] => a = e
  | a, c :: cs => CheckGoesOn m e a ∧ c = cellAt m a ∧ Passes m e (a + sizeOf m a) cs

section Check

variable {g : Segment} {cs : List Cell}

/-- What a segment that was accepted has passed. -/
theorem checkSegment_accepts (h : HeapCore.checkSegment m g = some true) :
    sizeOf m g.base = PROLOGUE_SIZE ∧ ¬ FreeAt m g.base ∧
      loop (HeapCore.checkStep m g.epilogue) WALK_BOUND g.first = some (some g.epilogue) ∧
      sizeOf m g.epilogue = EPILOGUE_SIZE ∧ ¬ FreeAt m g.epilogue := by
  simp only [HeapCore.checkSegment] at h
  split_ifs at h with hpro
  · simp at h
  obtain ⟨hsize, hflags⟩ := not_or.1 hpro
  rw [ne_eq, not_not] at hsize hflags
  obtain ⟨r, hloop, hr⟩ := Option.map_eq_some_iff.1 h
  cases r with
  | none => simp at hr
  | some c =>
    simp only at hr
    split_ifs at hr with hend hepi
    obtain ⟨hsize', hfree'⟩ := not_or.1 hepi
    rw [ne_eq, not_not] at hend hsize'
    rw [hend] at hloop hsize' hfree'
    refine ⟨hsize, fun hfree => ?_, hloop, hsize', hfree'⟩
    -- the two flag bits are set, so the first one is
    have hbit := congrArg (· &&& IN_USE) hflags
    simp only [Nat.and_assoc] at hbit
    rw [show (IN_USE ||| PREV_IN_USE) &&& IN_USE = IN_USE from rfl, hfree] at hbit
    exact absurd hbit (by decide)

/-- The walk only arrives at or behind the epilogue. -/
theorem checkStep_arrives {r : Nat} (h : HeapCore.checkStep m e c = .done (some r)) : r = c := by
  by_cases hle : e ≤ c
  · rw [HeapCore.checkStep, if_pos hle, Flow.done.injEq, Option.some.injEq] at h
    exact h.symm
  · simp only [HeapCore.checkStep, if_neg hle] at h
    split_ifs at h <;> simp at h

/-- A walk that ends at `e` without wrapping has passed a list of chunks. -/
theorem passes_of_loop (hloop : loop (HeapCore.checkStep m e) n a = some (some e))
    (hno : NoWrap m (CheckGoesOn m e) a) : ∃ cs, Passes m e a cs := by
  induction n generalizing a with
  | zero => simp [loop] at hloop
  | succ n ih =>
    by_cases hgo : CheckGoesOn m e a
    · have hnext := (checkStep_follows m e).goes a hgo
      rw [loop_next hnext, wadd_of_lt (hno a .refl hgo)] at hloop
      rw [wadd_of_lt (hno a .refl hgo)] at hnext
      obtain ⟨cs, hcs⟩ := ih hloop fun c hc => hno c
        (Relation.ReflTransGen.head ⟨hgo, by rw [wadd_of_lt (hno a .refl hgo)]⟩ hc)
      exact ⟨cellAt m a :: cs, hgo, rfl, hcs⟩
    · obtain ⟨r, hr⟩ := (checkStep_follows m e).stops a hgo
      rw [loop_done hr, Option.some.injEq] at hloop
      subst hloop
      exact ⟨[], (checkStep_arrives hr).symm⟩

theorem Passes.span_eq (h : Passes m e a cs) : a + span cs = e := by
  induction cs generalizing a with
  | nil => exact h
  | cons c cs ih =>
    obtain ⟨-, rfl, hrest⟩ := h
    have := ih hrest
    simp only [span, cellAt]
    omega

/-- What is known of a chunk that was passed. -/
theorem Passes.placed (h : Passes m e a cs) (he : e < 2 ^ 64) {x : Nat} {c : Cell}
    (hx : (x, c) ∈ Lib.Tiling.placed a cs) :
    CheckGoesOn m e x ∧ c = cellAt m x ∧ Linked m (CheckGoesOn m e) a x := by
  induction cs generalizing a with
  | nil => simp [Lib.Tiling.placed] at hx
  | cons d ds ih =>
    have hspan := h.span_eq
    obtain ⟨hgo, rfl, hrest⟩ := h
    rcases List.mem_cons.1 hx with heq | hx
    · obtain ⟨rfl, rfl⟩ := Prod.mk.inj heq
      exact ⟨hgo, rfl, .refl⟩
    · obtain ⟨hgo', hc, hlinked⟩ := ih hrest hx
      simp only [span, cellAt] at hspan
      exact ⟨hgo', hc, .head ⟨hgo, by rw [wadd_of_lt (by omega)]⟩ hlinked⟩

/-- The chunks linked to the first one are those of a documented tiling. -/
theorem Documented.linked (h : Documented m g cs) (he : g.endAddr < 2 ^ 64)
    (hc : Linked m (CheckGoesOn m (g.endAddr - 16)) (g.base + 16) c) :
    (∃ d, (c, d) ∈ Lib.Tiling.placed (g.base + 16) cs) ∨ c = g.endAddr - 16 := by
  have htiles := h.tiles
  induction hc with
  | refl => rw [← htiles]; exact placed_start _ _
  | tail _ hstep ih =>
    obtain ⟨hgo, rfl⟩ := hstep
    rcases ih with ⟨d, hd⟩ | rfl
    · have hle := (placed_le hd).2
      rw [(h.header _ d hd).1, wadd_of_lt (by omega), ← htiles]
      exact placed_next hd
    · exact absurd hgo.1 (Nat.lt_irrefl _)

/-- Sound up to what the walk does not test. -/
theorem documented_iff_untested (hroom : g.base + 64 ≤ g.endAddr) (he : g.endAddr < 2 ^ 64)
    (hcheck : HeapCore.checkSegment m g = some true) :
    (∃ cs, Documented m g cs) ↔ Untested m g := by
  constructor
  · rintro ⟨cs, h⟩
    have htiles := h.tiles
    refine ⟨h.prev_first, fun c hc hgo hend hused => ?_, fun c hc hgo => ?_⟩
    · rcases h.linked he hc with ⟨d, hd⟩ | rfl
      · obtain ⟨hsize, hiff⟩ := h.header c d hd
        rw [← hend, hsize]
        exact (h.prev_next c d hd).2 (hiff.2 hused)
      · exact absurd hgo.1 (Nat.lt_irrefl _)
    · rcases h.linked he hc with ⟨d, hd⟩ | rfl
      · have hle := (placed_le hd).2
        rw [(h.header c d hd).1]
        omega
      · exact absurd hgo.1 (Nat.lt_irrefl _)
  · -- the chunks that the accepting walk passed form the tiling
    intro h
    obtain ⟨hpro, hprofree, hloop, hepi, hepifree⟩ := checkSegment_accepts hcheck
    have hfirst : g.first = g.base + 16 := wadd_of_lt (show g.base + 16 < 2 ^ 64 by omega)
    have hlast : g.epilogue = g.endAddr - 16 := wsub_of_le he (show 16 ≤ g.endAddr by omega)
    rw [hfirst, hlast] at hloop
    rw [hlast] at hepi hepifree
    obtain ⟨cs, hcs⟩ := passes_of_loop hloop h.noWrap
    have hspan := hcs.span_eq
    have hnext : ∀ x c, (x, c) ∈ Lib.Tiling.placed (g.base + 16) cs →
        wadd x (sizeOf m x) = x + c.size := by
      intro x c hx
      obtain ⟨-, rfl, -⟩ := hcs.placed (by omega) hx
      have hle := (placed_le hx).2
      simp only [cellAt] at hle ⊢
      exact wadd_of_lt (by omega)
    refine ⟨cs, ⟨hpro, hprofree⟩, ⟨hepi, hepifree⟩, hspan, fun x c hx => ?_, fun c hc => ?_,
      fun x c hx hfree => ?_, h.first, fun x c hx => ?_⟩
    · obtain ⟨-, rfl, -⟩ := hcs.placed (by omega) hx
      exact ⟨rfl, decide_eq_true_iff⟩
    · obtain ⟨x, hx⟩ := exists_placed_of_mem (g.base + 16) hc
      obtain ⟨hgo, rfl, -⟩ := hcs.placed (by omega) hx
      exact hgo.2.1
    · obtain ⟨hgo, hc, -⟩ := hcs.placed (by omega) hx
      have hfits := hgo.2.2.2
      rw [hnext x c hx] at hfits
      have hfreeAt : FreeAt m x := by
        rw [hc] at hfree
        simpa [cellAt] using hfree
      obtain ⟨hfoot, -, hused⟩ := hfits.1 hfreeAt
      have hsize : sizeOf m x = c.size := by rw [hc]; rfl
      refine ⟨hfoot.trans hsize, ?_⟩
      rcases Nat.lt_or_ge (x + c.size) (g.endAddr - 16) with hlt | hge
      · exact hused hlt
      · have hle := (placed_le hx).2
        rwa [show x + c.size = g.endAddr - 16 by omega]
    · obtain ⟨hgo, hc, hlinked⟩ := hcs.placed (by omega) hx
      have hfits := hgo.2.2.2
      rw [hnext x c hx] at hfits
      have hused : c.used = true ↔ ¬ FreeAt m x := by
        rw [hc]
        exact decide_eq_true_iff
      rw [hused]
      by_cases hfreeAt : FreeAt m x
      · exact iff_of_false (hfits.1 hfreeAt).2.1 (fun hn => hn hfreeAt)
      · -- in front of the epilogue the walk tests the bit, at the epilogue it does not
        refine iff_of_true ?_ hfreeAt
        rcases Nat.lt_or_ge (x + c.size) (g.endAddr - 16) with hlt | hge
        · exact hfits.2 hfreeAt hlt
        · have hle := (placed_le hx).2
          have hend : x + c.size = g.endAddr - 16 := by omega
          rw [hend]
          exact h.last x hlinked hgo (by rw [← hend, hc]; rfl) hfreeAt

theorem checkSegments_accepts {segs : List Segment}
    (h : HeapCore.checkSegments m segs = some true) :
    ∀ g ∈ segs, HeapCore.checkSegment m g = some true := by
  induction segs with
  | nil => simp
  | cons g segs ih =>
    obtain ⟨ok, hok, hrest⟩ := Option.bind_eq_some_iff.1 h
    cases ok with
    | false => simp at hrest
    | true => exact List.forall_mem_cons.2 ⟨hok, ih hrest⟩

end Check

/-- **What `check_invariants` proves.** On every memory and every list of segments of 64 bytes or
more, if `check_invariants` returns true then what its documentation lists holds exactly when, in
each segment, the first chunk has its `PREV_IN_USE` bit, the epilogue has it after a chunk in use,
and no size on the walk wraps. -/
theorem accepted_documented_iff (h : HeapCore) (m : Mem)
    (hroom : ∀ g ∈ h.segments, g.base + 64 ≤ g.endAddr ∧ g.endAddr < 2 ^ 64)
    (hcheck : h.checkInvariants m = some true) :
    (∀ g ∈ h.segments, ∃ cs, Documented m g cs) ↔ ∀ g ∈ h.segments, Untested m g := by
  have hseg := checkSegments_accepts hcheck
  refine forall₂_congr fun g hg => ?_
  exact documented_iff_untested (hroom g hg).1 (hroom g hg).2 (hseg g hg)

/-- One segment `[4096, 8192)` of one free chunk. -/
def freshMem : Mem := (HeapCore.new.initRegion (fun _ => 0) 4096 8192).2

/-- The segment with a chunk in use, a free one and one in use. -/
def sharedMem : Mem :=
  setHeader (setPrevSize (setHeader (setHeader (setHeader freshMem 4112 1024 3) 5136 1024 2)
    6160 2016 1) 6160 1024) 8176 16 3

/-- It passes the test and is as documented, so what the test leaves out holds, too. -/
theorem accepted_documented_iff_shared : roundHeap.checkInvariants sharedMem = some true ∧
    ∀ g ∈ roundHeap.segments, Untested sharedMem g := by
  have hcheck : roundHeap.checkInvariants sharedMem = some true := by decide +kernel
  have hroom : ∀ g ∈ roundHeap.segments, g.base + 64 ≤ g.endAddr ∧ g.endAddr < 2 ^ 64 := by
    simp [roundHeap]
  refine ⟨hcheck, (accepted_documented_iff roundHeap sharedMem hroom hcheck).mp fun g hg => ?_⟩
  obtain rfl : g = ⟨4096, 8192⟩ := List.mem_singleton.mp hg
  have hplaced : ∀ y ∈ placed 4112 [⟨1024, true⟩, ⟨1024, false⟩, ⟨2016, true⟩],
      (sizeOf sharedMem y.1 = y.2.size ∧ (y.2.used = true ↔ ¬ FreeAt sharedMem y.1)) ∧
      (y.2.used = false → prevSizeOf sharedMem (y.1 + y.2.size) = y.2.size ∧
        ¬ FreeAt sharedMem (y.1 + y.2.size)) ∧
      (PrevUsedAt sharedMem (y.1 + y.2.size) ↔ y.2.used = true) := by decide +kernel
  exact ⟨[⟨1024, true⟩, ⟨1024, false⟩, ⟨2016, true⟩], by decide +kernel, by decide +kernel, rfl,
    fun x c hc => (hplaced (x, c) hc).1, by decide, fun x c hc => (hplaced (x, c) hc).2.1,
    by decide +kernel, fun x c hc => (hplaced (x, c) hc).2.2⟩

/-- Two memories that `check_invariants` accepts although they are not as documented: in the first
one the first chunk says that the prologue is free; in the second one the size of the first chunk
wraps, so the walk goes from 4112 to 256, outside of the segment, and from there to the epilogue. -/
theorem unsound_validation : (∃ m, roundHeap.checkInvariants m = some true ∧
      ¬ PrevUsedAt m 4112 ∧ ¬ ∃ cs, Documented m ⟨4096, 8192⟩ cs) ∧
    ∃ m, roundHeap.checkInvariants m = some true ∧
      sizeOf m 4112 = 2 ^ 64 - 3856 ∧ ¬ ∃ cs, Documented m ⟨4096, 8192⟩ cs := by
  constructor
  · refine ⟨setHeader freshMem 4112 4064 0, by decide +kernel, ?_, ?_⟩
    · decide +kernel
    · rintro ⟨cs, h⟩
      have hclear : ¬ PrevUsedAt (setHeader freshMem 4112 4064 0) 4112 := by decide +kernel
      exact hclear h.prev_first
  · refine ⟨setHeader (setHeader (setHeader freshMem 4112 (2 ^ 64 - 3856) 3) 256 7920 3) 8176 16 3,
      by decide +kernel, by decide +kernel, ?_⟩
    rintro ⟨cs, h⟩
    have hsize : sizeOf (setHeader (setHeader (setHeader freshMem 4112 (2 ^ 64 - 3856) 3)
        256 7920 3) 8176 16 3) 4112 = 2 ^ 64 - 3856 := by decide +kernel
    have htiles := h.tiles
    rcases placed_start 4112 cs with ⟨d, hd⟩ | hend
    · have hle := (placed_le hd).2
      have hd' := (h.header 4112 d hd).1
      simp only at htiles
      omega
    · simp only at htiles
      omega

end PlanckOS.Heap
