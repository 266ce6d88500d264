import PlanckOS.Heap.Chunks

/-!
# What `alloc` and `init_region` do to a segment

`place` turns the free chunk of a fenced tiling into a used one, split or whole
(`place_tiling`), and writes only between the header of that chunk and the header after it
(`place_frame`). `initRegion` builds a fenced tiling with a single free chunk
(`initMem_fenced`).
-/

set_option autoImplicit false

namespace PlanckOS.Heap

open Lib.Word Lib.ByteMemory Lib.Tiling
open List hiding span

variable {x needed sz e c flags b : Nat} {u p : Bool}

/-! ## Request sizes -/

theorem land_align_mask (hx : x < 2 ^ 64) : x &&& (2 ^ 64 - 1 - (CHUNK_ALIGN - 1)) = x / 16 * 16 :=
  land_high_mask (w := 64) (k := 4) (by decide) hx

/-- The size arithmetic of `alloc` never overflows on a legal layout. -/
theorem neededSize_eq (layout : Layout) :
    HeapCore.neededSize layout = some (max ((max layout.size 1 + 31) / 16 * 16) 32) := by
  have hs := layout.size_le
  have hfirst : checkedAdd (max layout.size 1) HEADER_SIZE = some (max layout.size 1 + 16) := by
    rw [checkedAdd, HEADER_SIZE, if_pos (by omega)]
  have hsecond : checkedAdd (max layout.size 1 + 16) (CHUNK_ALIGN - 1)
      = some (max layout.size 1 + 31) := by
    rw [checkedAdd, CHUNK_ALIGN, if_pos (by omega)]
  simp only [HeapCore.neededSize, alignUpChecked, hfirst, Option.bind_some, hsecond,
    Option.map_some, MIN_CHUNK]
  rw [land_align_mask (by omega)]

/-- What callers need of the chunk size of a request. -/
theorem neededSize_facts {layout : Layout} (h : HeapCore.neededSize layout = some needed) :
    32 ≤ needed ∧ needed % 16 = 0 ∧ layout.size + 16 ≤ needed := by
  rw [neededSize_eq, Option.some.injEq] at h
  omega

/-! ## Splitting and taking whole -/

/-- The chunks a free chunk of `sz` bytes becomes when `needed` bytes are taken of it. -/
def carve (sz needed : Nat) : List Cell :=
  if MIN_CHUNK ≤ sz - needed then [⟨needed, true⟩, ⟨sz - needed, false⟩] else [⟨sz, true⟩]

theorem span_carve (h : needed ≤ sz) : span (carve sz needed) = sz := by
  rw [carve]
  split <;> simp only [span] <;> omega

section Place

variable {m : Mem} {a : Nat} {pu : Bool} {pre post : List Cell}

/-- Memory after a split. -/
def splitMem (m : Mem) (c sz needed flags : Nat) : Mem :=
  let m := setPrevSize m (c + needed) needed
  let m := setHeader m (c + needed) (sz - needed) PREV_IN_USE
  let m := setHeader m c needed ((flags &&& PREV_IN_USE) ||| IN_USE)
  setPrevSize m (c + sz) (sz - needed)

/-- Memory after the whole chunk was taken. -/
def takeMem (m : Mem) (c sz flags : Nat) : Mem :=
  let m := setHeader m c sz ((flags &&& PREV_IN_USE) ||| IN_USE)
  setHeader m (c + sz) (sizeOf m (c + sz)) ((flagsOf m (c + sz) &&& IN_USE) ||| PREV_IN_USE)

/-- `place` on a chunk inside the address space, with its arithmetic carried out. -/
theorem place_eq (h : HeapCore) (hsz : sizeOf m c = sz) (hle : needed ≤ sz)
    (hend : c + sz + 16 ≤ 2 ^ 64) : h.place m c needed =
      if MIN_CHUNK ≤ sz - needed then
        ({ h with freeBytes := wsub h.freeBytes needed, allocCount := wadd h.allocCount 1 },
          splitMem m c sz needed (flagsOf m c))
      else
        ({ h with freeBytes := wsub h.freeBytes sz, allocCount := wadd h.allocCount 1 },
          takeMem m c sz (flagsOf m c)) := by
  have h1 : wsub sz needed = sz - needed := wsub_of_le (by omega) hle
  have h2 : wadd c needed = c + needed := wadd_of_lt (by omega)
  have h3 : wadd c sz = c + sz := wadd_of_lt (by omega)
  simp only [HeapCore.place, hsz, h1, h2, h3, splitMem, takeMem]

theorem splitMem_apply (hmin : 32 ≤ needed) (hle : needed + 32 ≤ sz) (hend : c + sz + 16 ≤ 2 ^ 64)
    (hx : x < c + 8 ∨ (c + 16 ≤ x ∧ x < c + needed) ∨ (c + needed + 16 ≤ x ∧ x < c + sz) ∨
      c + sz + 8 ≤ x) : splitMem m c sz needed flags x = m x := by
  rw [splitMem, setPrevSize_apply (by omega), setHeader_apply (by omega),
    setHeader_apply (by omega), setPrevSize_apply (by omega)]

theorem takeMem_apply (hend : c + sz + 16 ≤ 2 ^ 64) (hsz : 32 ≤ sz)
    (hx : x < c + 8 ∨ (c + 16 ≤ x ∧ x < c + sz + 8) ∨ c + sz + 16 ≤ x) :
    takeMem m c sz flags x = m x := by
  rw [takeMem, setHeader_apply (by omega),
    setHeader_apply (by omega)]

/-- The flags written into a chunk that is taken: in use, previous bit kept. -/
theorem taken_flags (h : Header m c sz u p) :
    (flagsOf m c &&& PREV_IN_USE) ||| IN_USE = true.toNat + 2 * p.toNat := by
  rw [h.2]
  cases u <;> cases p <;> decide

/-- The flags written into the chunk after a taken one: previous in use, own bit kept. -/
theorem followed_flags (h : Header m c sz u p) :
    (flagsOf m c &&& IN_USE) ||| PREV_IN_USE = u.toNat + 2 * true.toNat := by
  rw [h.2]
  cases u <;> cases p <;> decide

section

variable (h : Fenced m a pu (pre ++ ⟨sz, false⟩ :: post) e) (he : e + 16 ≤ 2 ^ 64)
include h he

theorem splitMem_fenced (hmod : needed % 16 = 0) (hmin : 32 ≤ needed) (hle : needed + 32 ≤ sz) :
    Fenced (splitMem m (a + span pre) sz needed (flagsOf m (a + span pre))) a pu
      (pre ++ [⟨needed, true⟩, ⟨sz - needed, false⟩] ++ post) e := by
  obtain ⟨hpre, hc⟩ := fenced_append.1 h
  obtain ⟨-, hszmod, hhead, hfree, hpost⟩ := fenced_cons.1 hc
  have hend := hpost.1.end_eq
  simp only [CHUNK_ALIGN] at hszmod
  generalize hcdef : a + span pre = c at *
  have hbound : c + sz + 16 ≤ 2 ^ 64 := by omega
  have hpu := (hfree rfl).1
  rw [append_assoc, cons_append, cons_append, nil_append, fenced_append, hcdef]
  refine ⟨?_, ?_⟩
  · exact hpre.congr (by omega) fun x _ h2 => splitMem_apply hmin hle hbound (Or.inl (by omega))
  · refine fenced_cons.2 ⟨hmin, hmod, ?_, by simp, ?_⟩
    · -- the header of the left part
      have hset := header_setHeader
        (setHeader (setPrevSize m (c + needed) needed) (c + needed) (sz - needed) PREV_IN_USE)
        c needed _ true (lastUsed pu pre) (by omega) (by omega) (by omega) (taken_flags hhead)
      refine hset.congr (by omega) fun x _ h2 => ?_
      exact setPrevSize_apply (by omega)
    · refine fenced_cons.2 ⟨?_, ?_, ?_, ?_, ?_⟩
      · simp only [MIN_CHUNK]; omega
      · simp only [CHUNK_ALIGN]; omega
      · -- the header of the right part
        have hset := header_setHeader (setPrevSize m (c + needed) needed) (c + needed)
          (sz - needed) PREV_IN_USE false true (by omega) (by omega) (by omega) rfl
        refine hset.congr (by omega) fun x h1 h2 => ?_
        rw [splitMem, setPrevSize_apply (by omega), setHeader_apply (by omega)]
      · -- its footer
        refine fun _ => ⟨rfl, ?_⟩
        have hnext : c + needed + (sz - needed) = c + sz := by omega
        simp only [hnext, splitMem]
        exact readWord_setPrevSize _ _ (by omega)
      · have hnext : c + needed + (sz - needed) = c + sz := by omega
        simp only [hnext]
        exact hpost.congr he fun x h1 _ => splitMem_apply hmin hle hbound (by omega)

theorem takeMem_fenced : Fenced (takeMem m (a + span pre) sz (flagsOf m (a + span pre))) a pu
      (pre ++ [⟨sz, true⟩] ++ post) e := by
  obtain ⟨hpre, hc⟩ := fenced_append.1 h
  obtain ⟨hszmin, hszmod, hhead, -, hpost⟩ := fenced_cons.1 hc
  have hend := hpost.1.end_eq
  have hhs := hpost.headSize_le
  have hhm := hpost.headSize_mod
  simp only [CHUNK_ALIGN] at hszmod
  simp only [MIN_CHUNK] at hszmin
  generalize hcdef : a + span pre = c at *
  have hbound : c + sz + 16 ≤ 2 ^ 64 := by omega
  rw [append_assoc, cons_append, nil_append, fenced_append, hcdef]
  refine ⟨?_, fenced_cons.2 ⟨hszmin, hszmod, ?_, by simp, ?_⟩⟩
  · exact hpre.congr (by omega) fun x _ h2 => takeMem_apply hbound hszmin (Or.inl (by omega))
  · have hset := header_setHeader m c sz _ true (lastUsed pu pre) (by omega) (by omega) (by omega)
      (taken_flags hhead)
    refine hset.congr (by omega) fun x _ h2 => ?_
    exact setHeader_apply (by omega)
  · -- the chunk after keeps its size and in-use bit and now follows a used chunk
    have hnext : Header (setHeader m c sz ((flagsOf m c &&& PREV_IN_USE) ||| IN_USE)) (c + sz)
        (headSize post) (headUsed post) false :=
      hpost.head.congr (by omega) fun x h1 _ => setHeader_apply (by omega)
    have hset := header_setHeader (setHeader m c sz ((flagsOf m c &&& PREV_IN_USE) ||| IN_USE))
      (c + sz) (headSize post) _ (headUsed post) true (by omega) (by omega) (by omega)
      (followed_flags hnext)
    refine hpost.retag he (fun x h1 _ => takeMem_apply hbound hszmin (by omega)) ?_ fun _ => rfl
    rw [takeMem, hnext.1]
    exact hset

end

/-- **Placing a block.** The free chunk is carved; the rest of the tiling stays. -/
theorem place_tiling (h : HeapCore) (hf : Fenced m a pu (pre ++ ⟨sz, false⟩ :: post) e)
    (he : e + 16 ≤ 2 ^ 64) (hmod : needed % 16 = 0) (hmin : 32 ≤ needed) (hle : needed ≤ sz) :
    Fenced (h.place m (a + span pre) needed).2 a pu (pre ++ carve sz needed ++ post) e := by
  obtain ⟨-, hc⟩ := fenced_append.1 hf
  obtain ⟨-, -, hhead, -, hpost⟩ := fenced_cons.1 hc
  have hend := hpost.1.end_eq
  rw [place_eq h hhead.1 hle (by omega), carve]
  by_cases hrest : MIN_CHUNK ≤ sz - needed
  · rw [if_pos hrest, if_pos hrest]
    simp only [MIN_CHUNK] at hrest
    exact splitMem_fenced hf he hmod hmin (by omega)
  · rw [if_neg hrest, if_neg hrest]
    exact takeMem_fenced hf he

/-- Placing a block writes between the header of the chunk and the header after it. -/
theorem place_frame (h : HeapCore) (hsz : sizeOf m c = sz) (hmin : 32 ≤ needed)
    (hle : needed ≤ sz) (hend : c + sz + 16 ≤ 2 ^ 64) (hx : x < c + 8 ∨ c + sz + 16 ≤ x) :
    (h.place m c needed).2 x = m x := by
  rw [place_eq h hsz hle hend]
  by_cases hrest : MIN_CHUNK ≤ sz - needed
  · rw [if_pos hrest]
    simp only [MIN_CHUNK] at hrest
    exact splitMem_apply hmin (by omega) hend (by omega)
  · rw [if_neg hrest]
    exact takeMem_apply hend (by omega) (by omega)

/-- Bytes taken off the free pool. -/
def takenBytes (sz needed : Nat) : Nat := if MIN_CHUNK ≤ sz - needed then needed else sz

theorem place_core (h : HeapCore) (hsz : sizeOf m c = sz) (hle : needed ≤ sz)
    (hend : c + sz + 16 ≤ 2 ^ 64) : (h.place m c needed).1 =
      { h with
        freeBytes := wsub h.freeBytes (takenBytes sz needed)
        allocCount := wadd h.allocCount 1 } := by
  rw [place_eq h hsz hle hend, takenBytes]
  by_cases hrest : MIN_CHUNK ≤ sz - needed
  · simp only [if_pos hrest]
  · simp only [if_neg hrest]

theorem freeSpan_carve (hle : needed ≤ sz) :
    freeSpan (carve sz needed) + takenBytes sz needed = sz := by
  rw [carve, takenBytes]
  by_cases hrest : MIN_CHUNK ≤ sz - needed
  · simp only [if_pos hrest, freeSpan]
    simp
    omega
  · simp only [if_neg hrest, freeSpan]
    simp

/-- A header inside the part that stays free keeps its in-use bit clear. -/
theorem place_quiet (h : HeapCore) {y : Nat} (hsz : sizeOf m c = sz) (hle : needed ≤ sz)
    (hend : c + sz + 16 ≤ 2 ^ 64) (hcy : (y - c) % 16 = 0) (hszmod : sz % 16 = 0)
    (hmod : needed % 16 = 0) (hmin : 32 ≤ needed) (hlo : c + takenBytes sz needed ≤ y)
    (hhi : y < c + sz) (hquiet : flagsOf m y &&& IN_USE = 0) :
    flagsOf (h.place m c needed).2 y &&& IN_USE = 0 := by
  rw [takenBytes] at hlo
  by_cases hrest : MIN_CHUNK ≤ sz - needed
  · rw [if_pos hrest] at hlo
    rw [place_eq h hsz hle hend, if_pos hrest]
    simp only [MIN_CHUNK] at hrest
    by_cases hy : y = c + needed
    · -- the header of the right part is written free
      subst hy
      have hset := header_setHeader (setPrevSize m (c + needed) needed) (c + needed) (sz - needed)
        PREV_IN_USE false true (by omega) (by omega) (by omega) rfl
      have hright : Header (splitMem m c sz needed (flagsOf m c)) (c + needed) (sz - needed)
          false true := by
        refine hset.congr (by omega) fun x h1 h2 => ?_
        rw [splitMem, setPrevSize_apply (by omega)]
        exact setHeader_apply (by omega)
      exact hright.inUse_iff.2 rfl
    · have hword : readWord (splitMem m c sz needed (flagsOf m c)) (y + 8) = readWord m (y + 8) :=
        readWord_congr fun x h1 h2 => splitMem_apply hmin (by omega) hend (by omega)
      rw [flagsOf_eq (by omega), hword, ← flagsOf_eq (by omega)]
      exact hquiet
  · rw [if_neg hrest] at hlo
    omega

end Place

/-! ## A new segment -/

/-- Memory after `[b, e)` was set up as a segment. -/
def initMem (m : Mem) (b e : Nat) : Mem :=
  let m := setHeader m b PROLOGUE_SIZE (IN_USE ||| PREV_IN_USE)
  let m := setHeader m (b + 16) (e - b - 32) PREV_IN_USE
  let m := setPrevSize m (e - 16) (e - b - 32)
  setHeader m (e - 16) EPILOGUE_SIZE IN_USE

/-- `init_region` with its arithmetic carried out, for a base that leaves room below the top of the
address space. -/
theorem initRegion_eq (h : HeapCore) (m : Mem) {base endAddr : Nat}
    (hseg : h.segments.length < MAX_SEGMENTS) (hbase : base + 80 ≤ 2 ^ 64)
    (hend : endAddr < 2 ^ 64) : h.initRegion m base endAddr =
      if endAddr / 16 * 16 < (base + 15) / 16 * 16 + 64 then (h, m)
      else
        ({ h with
            segments := h.segments ++ [⟨(base + 15) / 16 * 16, endAddr / 16 * 16⟩]
            freeBytes := wadd h.freeBytes (endAddr / 16 * 16 - (base + 15) / 16 * 16 - 32) },
          initMem m ((base + 15) / 16 * 16) (endAddr / 16 * 16)) := by
  have h1 : alignUp base CHUNK_ALIGN = (base + 15) / 16 * 16 := by
    have hx : wsub (wadd base CHUNK_ALIGN) 1 = base + 15 := by
      rw [CHUNK_ALIGN, wadd_of_lt (by omega), wsub_of_le (by omega) (by omega)]
      omega
    rw [alignUp, hx, land_align_mask (by omega)]
  have h2 := land_align_mask hend
  generalize hb : (base + 15) / 16 * 16 = b at *
  generalize he : endAddr / 16 * 16 = e at *
  have h3 : wadd (wadd (wadd b MIN_CHUNK) PROLOGUE_SIZE) EPILOGUE_SIZE = b + 64 := by
    simp only [MIN_CHUNK, PROLOGUE_SIZE, EPILOGUE_SIZE]
    rw [wadd_of_lt (show b + 32 < 2 ^ 64 by omega), wadd_of_lt (show b + 32 + 16 < 2 ^ 64 by omega),
      wadd_of_lt (show b + 32 + 16 + 16 < 2 ^ 64 by omega)]
  rw [HeapCore.initRegion, if_neg (by omega)]
  simp only [h1, h2, h3]
  by_cases hsmall : e < b + 64
  · rw [if_pos hsmall, if_pos hsmall]
  · rw [if_neg hsmall, if_neg hsmall]
    have h4 : wsub (wsub (wsub e b) PROLOGUE_SIZE) EPILOGUE_SIZE = e - b - 32 := by
      simp only [PROLOGUE_SIZE, EPILOGUE_SIZE]
      rw [wsub_of_le (a := e) (by omega) (by omega), wsub_of_le (a := e - b) (by omega) (by omega),
        wsub_of_le (by omega) (by omega)]
      omega
    have h5 : wadd b PROLOGUE_SIZE = b + 16 := wadd_of_lt (by simp only [PROLOGUE_SIZE]; omega)
    have h6 : wsub e EPILOGUE_SIZE = e - 16 :=
      wsub_of_le (by omega) (by simp only [EPILOGUE_SIZE]; omega)
    simp only [h4, h5, h6, initMem]

theorem initMem_apply (m : Mem) (hlen : b + 64 ≤ e) (he : e < 2 ^ 64)
    (hx : x < b + 8 ∨ e ≤ x) : initMem m b e x = m x := by
  rw [initMem, setHeader_apply (by omega), setPrevSize_apply (by omega),
    setHeader_apply (by omega), setHeader_apply (by omega)]

/-- A new segment has its prologue in place. -/
theorem initMem_prologue (m : Mem) (hlen : b + 64 ≤ e) (he : e < 2 ^ 64) :
    Header (initMem m b e) b PROLOGUE_SIZE true true := by
  have hset := header_setHeader m b PROLOGUE_SIZE (IN_USE ||| PREV_IN_USE) true true (by omega) rfl
    (by decide) rfl
  refine hset.congr (by omega) fun x h1 h2 => ?_
  rw [initMem, setHeader_apply (by omega), setPrevSize_apply (by omega),
    setHeader_apply (by omega)]

/-- A new segment is one free chunk between its fences. -/
theorem initMem_fenced (m : Mem) (hlen : b + 64 ≤ e) (he : e < 2 ^ 64)
    (hb16 : b % 16 = 0) (he16 : e % 16 = 0) :
    Fenced (initMem m b e) (b + 16) true [⟨e - b - 32, false⟩] (e - 16) := by
  have hnext : b + 16 + (e - b - 32) = e - 16 := by omega
  refine fenced_cons.2 ⟨?_, ?_, ?_, fun _ => ⟨rfl, ?_⟩, ?_⟩
  · simp only [MIN_CHUNK]; omega
  · simp only [CHUNK_ALIGN]; omega
  · have hset := header_setHeader (setHeader m b PROLOGUE_SIZE (IN_USE ||| PREV_IN_USE)) (b + 16)
      (e - b - 32) PREV_IN_USE false true (by omega) (by omega) (by omega) rfl
    refine hset.congr (by omega) fun x h1 h2 => ?_
    rw [initMem, setHeader_apply (by omega), setPrevSize_apply (by omega)]
  · rw [hnext]
    have hset := readWord_setPrevSize
      (setHeader (setHeader m b PROLOGUE_SIZE (IN_USE ||| PREV_IN_USE)) (b + 16) (e - b - 32)
        PREV_IN_USE) (e - 16) (show e - b - 32 < 2 ^ 64 by omega)
    rw [initMem, readWord_congr fun x h1 h2 => setHeader_apply (by omega)]
    exact hset
  · rw [hnext]
    refine ⟨rfl, ?_⟩
    exact header_setHeader _ _ _ IN_USE true false (by omega) rfl (by decide) rfl

end PlanckOS.Heap
