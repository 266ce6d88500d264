import PlanckOS.Heap.Chunks

/-!
# What `dealloc` does to a segment

Freeing the used chunk at `c` of a fenced tiling `pre ++ ⟨sz, true⟩ :: post` merges it with the
free chunk that ends `pre`, if there is one, and with the free chunk that starts `post`, if there
is one. The four cases share one statement (`dealloc_tiling`): `pre` and `post` each lose at most
one free chunk, and one free chunk stands for the whole span. The headers that become interior to
the span are neutralised, so no address in it looks like a chunk in use.
-/

set_option autoImplicit false

namespace PlanckOS.Heap

open Lib.Word Lib.ByteMemory Lib.Loop Lib.Tiling

variable {pre pre' post post' : List Cell} {n c s lo hi x : Nat} {m m₁ m₂ : Mem}

/-- `pre` without the free chunk of `n` bytes that ends it, `n = 0` when there is none. -/
inductive DropLast (pre : List Cell) : List Cell → Nat → Prop
  | keep : DropLast pre pre 0
  | drop {pre' : List Cell} {n : Nat} (h : pre = pre' ++ [⟨n, false⟩]) : DropLast pre pre' n

/-- `post` without the free chunk of `n` bytes that starts it, `n = 0` when there is none. -/
inductive DropHead (post : List Cell) : List Cell → Nat → Prop
  | keep : DropHead post post 0
  | drop {post' : List Cell} {n : Nat} (h : post = ⟨n, false⟩ :: post') : DropHead post post' n

theorem DropLast.span_eq (h : DropLast pre pre' n) : span pre = span pre' + n := by
  cases h with
  | keep => rfl
  | drop h => rw [h, span_append]; rfl

theorem DropHead.span_eq (h : DropHead post post' n) : span post = n + span post' := by
  cases h with
  | keep => exact (Nat.zero_add _).symm
  | drop h => rw [h]; rfl

/-- The dropped part: free cells of total size `n`. -/
theorem DropLast.split (h : DropLast pre pre' n) :
    ∃ L, pre = pre' ++ L ∧ span L = n ∧ freeSpan L = n ∧ ∀ d ∈ L, d.used = false := by
  cases h with
  | keep => exact ⟨[], by simp, rfl, rfl, by simp⟩
  | drop h => exact ⟨[⟨n, false⟩], h, rfl, by simp [freeSpan], by simp⟩

/-- The dropped part: free cells of total size `n`. -/
theorem DropHead.split (h : DropHead post post' n) :
    ∃ R, post = R ++ post' ∧ span R = n ∧ freeSpan R = n ∧ ∀ d ∈ R, d.used = false := by
  cases h with
  | keep => exact ⟨[], by simp, rfl, rfl, by simp⟩
  | drop h => exact ⟨[⟨n, false⟩], h, rfl, by simp [freeSpan], by simp⟩

section Free

variable {a e sz : Nat} {cs : List Cell} {seg : Segment} {u : Bool}

/-! ## Backward coalescing -/

theorem coalesceBackward_eq (hpre : Tiles m a true pre c)
    (hhead : Header m c sz true (lastUsed true pre))
    (hseg : wadd seg.base PROLOGUE_SIZE = a) (hend : c + sz + 16 ≤ 2 ^ 64) (hsz : 32 ≤ sz) :
    ∃ pre' n m₁,
      HeapCore.coalesceBackward m seg c (flagsOf m c) sz = some (a + span pre', sz + n, m₁) ∧
      DropLast pre pre' n ∧ lastUsed true pre' = true ∧ n % 16 = 0 ∧
      Tiles m a true pre' (a + span pre') ∧
      flagsOf m₁ (a + span pre') &&& PREV_IN_USE = PREV_IN_USE ∧
      (n = 0 ∧ m₁ = m ∨ 32 ≤ n ∧ m₁ = setHeader m c 0 0) := by
  have hc := hpre.end_eq
  cases hlast : lastUsed true pre with
  | true =>
    have hflag : flagsOf m c &&& PREV_IN_USE = PREV_IN_USE := by
      rw [hhead.2, hlast]
      rfl
    refine ⟨pre, 0, m, ?_, .keep, hlast, rfl, hc ▸ hpre, hc ▸ hflag, Or.inl ⟨rfl, rfl⟩⟩
    rw [HeapCore.coalesceBackward, if_neg (by rw [hflag]; decide), Nat.add_zero, hc]
  | false =>
    -- the chunk before is free: it exists, and `prev_size` leads to it
    obtain rfl | ⟨pre', d, hpd⟩ := List.eq_nil_or_concat pre
    · simp [lastUsed] at hlast
    rw [List.concat_eq_append] at hpd
    obtain ⟨n, u⟩ := d
    subst hpd
    have hu : u = false := by simpa [lastUsed] using hlast
    subst hu
    obtain ⟨hpre', hmin, hmod, hd, hfree, hnc⟩ := tiles_append.1 hpre
    obtain ⟨hbefore, hfoot⟩ := hfree rfl
    simp only [MIN_CHUNK, CHUNK_ALIGN] at hmin hmod hfoot hd
    change a + span pre' + n = c at hnc
    rw [hnc] at hfoot
    have hclear : flagsOf m c &&& PREV_IN_USE = 0 := hhead.prevInUse_iff.2 hlast
    refine ⟨pre', n, setHeader m c 0 0, ?_, .drop rfl, hbefore, hmod, hpre', ?_, Or.inr ⟨hmin, rfl⟩⟩
    · have hprev : c - prevSizeOf m c = a + span pre' := by
        rw [prevSizeOf_of_word hfoot hmod]
        omega
      have hsum : wadd sz (sizeOf m (a + span pre')) = sz + n := by
        rw [hd.1]
        exact wadd_of_lt (by omega)
      rw [HeapCore.coalesceBackward, if_pos hclear]
      simp only [hprev, hseg, hsum]
      rw [if_neg (by omega)]
    · have hd' : Header (setHeader m c 0 0) (a + span pre') n false (lastUsed true pre') :=
        hd.congr (by omega) fun x _ h2 => setHeader_apply (by omega)
      rw [hd'.2, hbefore]
      rfl

/-! ## Forward coalescing -/

theorem walkBound_eq : WALK_BOUND = (2 ^ 64 - 2) + 1 + 1 := by norm_num [WALK_BOUND]

theorem absorbStep_used (hcs : Fenced m₁ n u cs e) (hu : headUsed cs = true) :
    HeapCore.absorbStep e (n, s, m₁) = .done (n, s, m₁) := by
  have hnot : ¬ (n < e ∧ flagsOf m₁ n &&& IN_USE = 0) := by
    rintro ⟨-, hf⟩
    rw [hcs.head.inUse_iff, hu] at hf
    exact Bool.noConfusion hf
  simp only [HeapCore.absorbStep, if_neg hnot]

theorem headUsed_of_free (h : Fenced m₁ n false cs e) : headUsed cs = true := by
  cases cs with
  | nil => rfl
  | cons d ds =>
    obtain ⟨-, -, -, hfree, -⟩ := fenced_cons.1 h
    cases hd : d.used with
    | true => exact hd
    | false => exact absurd (hfree hd).1 (by simp)

theorem absorb_eq (hpost : Fenced m₁ n true post e)
    (he : e + 16 ≤ 2 ^ 64) (hs : s + span post < 2 ^ 64) : ∃ post' k m₂ u,
      loop (HeapCore.absorbStep e) WALK_BOUND (n, s, m₁) = some (n + k, s + k, m₂) ∧
      DropHead post post' k ∧ headUsed post' = true ∧ k % 16 = 0 ∧ Fenced m₁ (n + k) u post' e ∧
      (k = 0 ∧ m₂ = m₁ ∨ 32 ≤ k ∧ m₂ = setHeader m₁ n 0 0) := by
  cases hu : headUsed post with
  | true =>
    refine ⟨post, 0, m₁, true, ?_, .keep, hu, rfl, hpost, Or.inl ⟨rfl, rfl⟩⟩
    rw [walkBound_eq]
    exact loop_done (absorbStep_used hpost hu)
  | false =>
    cases post with
    | nil => simp [headUsed] at hu
    | cons d post' =>
      obtain ⟨k, u⟩ := d
      simp only [headUsed] at hu
      subst hu
      have hend := hpost.1.end_eq
      obtain ⟨hmin, hmod, hhead, -, hrest⟩ := fenced_cons.1 hpost
      simp only [span] at hend hs
      have hmin' := hmin
      have hmod' := hmod
      simp only [MIN_CHUNK, CHUNK_ALIGN] at hmin' hmod'
      have hused := headUsed_of_free hrest
      have hrest' : Fenced (setHeader m₁ n 0 0) (n + k) false post' e :=
        hrest.congr he fun x h1 _ => setHeader_apply (by omega)
      refine ⟨post', k, setHeader m₁ n 0 0, false, ?_, .drop rfl, hused, hmod', hrest,
        Or.inr ⟨hmin', rfl⟩⟩
      have hstep : HeapCore.absorbStep e (n, s, m₁) = .next (n + k, s + k, setHeader m₁ n 0 0) := by
        have hcond : n < e ∧ flagsOf m₁ n &&& IN_USE = 0 :=
          ⟨by omega, hhead.inUse_iff.2 rfl⟩
        have hsane : ¬ (k < MIN_CHUNK ∨ k % CHUNK_ALIGN ≠ 0) := by
          rintro (h | h)
          · omega
          · exact h hmod
        simp only [HeapCore.absorbStep, if_pos hcond, hhead.1, if_neg hsane,
          wadd_of_lt (show n + k < 2 ^ 64 by omega), wadd_of_lt (show s + k < 2 ^ 64 by omega)]
      rw [walkBound_eq, loop_next hstep]
      exact loop_done (absorbStep_used hrest' hused)

/-! ## The merged chunk -/

theorem finishFree_apply (hlo : lo + 32 ≤ hi) (hhi : hi + 16 ≤ 2 ^ 64)
    (hx : x < lo + 8 ∨ (lo + 16 ≤ x ∧ x < hi) ∨ hi + 16 ≤ x) :
    HeapCore.finishFree m₂ lo s hi x = m₂ x := by
  rw [HeapCore.finishFree, setHeader_apply (by omega),
    setHeader_apply (by omega), setPrevSize_apply (by omega)]

/-- The span from `lo` to `hi` becomes one free chunk of the tiling. -/
theorem finishFree_fenced (hpre : Tiles m a true pre' lo) (hlast : lastUsed true pre' = true)
    (hpost : Fenced m hi u post' e) (hused : headUsed post' = true) (he : e + 16 ≤ 2 ^ 64)
    (hlo : lo + 32 ≤ hi) (hmod : (hi - lo) % 16 = 0) (hag : ∀ x, x < lo + 8 ∨ hi ≤ x → m₂ x = m x)
    (hflag : flagsOf m₂ lo &&& PREV_IN_USE = PREV_IN_USE) :
    Fenced (HeapCore.finishFree m₂ lo (hi - lo) hi) a true
      (pre' ++ ⟨hi - lo, false⟩ :: post') e := by
  have hlo_eq := hpre.end_eq
  have hend := hpost.1.end_eq
  have hhead := hpost.head
  have hhs := hpost.headSize_le
  have hhm := hpost.headSize_mod
  rw [hused] at hhead
  -- the flags of the span's first header before it is rewritten
  have hflag₁ : flagsOf (setPrevSize m₂ hi (hi - lo)) lo = flagsOf m₂ lo := by
    rw [flagsOf_eq (by omega), flagsOf_eq (by omega),
      readWord_congr fun x h1 h2 => setPrevSize_apply (by omega)]
  have hspan :
    Header (setHeader (setPrevSize m₂ hi (hi - lo)) lo (hi - lo) PREV_IN_USE) lo (hi - lo)
      false true :=
    header_setHeader _ _ _ _ _ _ (by omega) (by omega) (by omega) rfl
  -- the header at `hi` before it is rewritten
  have hnext : Header (setHeader (setPrevSize m₂ hi (hi - lo)) lo (hi - lo) PREV_IN_USE) hi
      (headSize post') true u := by
    refine hhead.congr (by omega) fun x h1 _ => ?_
    rw [setHeader_apply (by omega), setPrevSize_apply (by omega)]
    exact hag x (Or.inr (by omega))
  have hinuse : flagsOf (setHeader (setPrevSize m₂ hi (hi - lo)) lo (hi - lo) PREV_IN_USE) hi
      &&& IN_USE = true.toNat + 2 * false.toNat := by
    rw [hnext.2]
    cases u <;> rfl
  have hm : HeapCore.finishFree m₂ lo (hi - lo) hi =
      setHeader (setHeader (setPrevSize m₂ hi (hi - lo)) lo (hi - lo) PREV_IN_USE) hi
        (headSize post') (true.toNat + 2 * false.toNat) := by
    simp only [HeapCore.finishFree, hflag₁, hflag, hinuse, hnext.1]
  rw [fenced_append, ← hlo_eq, hlast]
  refine ⟨?_, fenced_cons.2 ⟨?_, hmod, ?_, fun _ => ⟨rfl, ?_⟩, ?_⟩⟩
  · refine hpre.congr (by omega) fun x _ h2 => ?_
    rw [finishFree_apply hlo (by omega) (Or.inl (by omega)), hag x (Or.inl (by omega))]
  · simp only [MIN_CHUNK]; omega
  · rw [hm]
    exact hspan.congr (by omega) fun x _ _ => setHeader_apply (by omega)
  · rw [show lo + (hi - lo) = hi by omega, hm,
      readWord_congr fun x _ _ => setHeader_apply (by omega),
      readWord_congr fun x _ _ => setHeader_apply (by omega)]
    exact readWord_setPrevSize _ _ (by omega)
  · rw [show lo + (hi - lo) = hi by omega]
    refine hpost.retag he (fun x h1 _ => ?_) ?_ (by simp [hused])
    · rw [finishFree_apply hlo (by omega) (by omega), hag x (Or.inr (by omega))]
    · rw [hm, hused]
      exact header_setHeader _ _ _ _ _ _ (by omega) (by omega) (by omega) rfl

/-! ## The whole operation -/

theorem flagsOf_setHeader_zero (m : Mem) (hx : x + 16 ≤ 2 ^ 64) :
    flagsOf (setHeader m x 0 0) x &&& IN_USE = 0 := by
  rw [flagsOf_setHeader m hx rfl (by decide) (by decide)]
  rfl

theorem flagsOf_congr {m' : Mem} (hx : x + 16 ≤ 2 ^ 64)
    (hag : AgreeOn m m' (x + 8) (x + 16)) : flagsOf m' x = flagsOf m x := by
  rw [flagsOf_eq hx, flagsOf_eq hx, readWord_congr fun y h1 h2 => hag y h1 (by omega)]

/-- Neutralising headers in `[lo, hi)` leaves the in-use bits there clear, up to the headers
neutralised. -/
theorem quiet_setHeader_zero {y : Nat} (hx : x + 16 ≤ 2 ^ 64) (hy : y + 16 ≤ 2 ^ 64)
    (hxy : x % 16 = y % 16) (h : y = x ∨ flagsOf m y &&& IN_USE = 0) :
    flagsOf (setHeader m x 0 0) y &&& IN_USE = 0 := by
  by_cases hyx : y = x
  · subst hyx
    exact flagsOf_setHeader_zero m hx
  · rw [flagsOf_congr hy fun z h1 h2 => setHeader_apply ⟨hx, by omega⟩]
    exact h.resolve_left hyx

/-- **Freeing a block.** The chunk at `c` and its free neighbours become one free chunk of the
tiling, the counters move by the chunk's size and one block, and the memory changes between the
header of the span and the header after it. -/
theorem dealloc_tiling (h : HeapCore)
    (hf : Fenced m a true (pre ++ ⟨sz, true⟩ :: post) e) (hc : c = a + span pre)
    (he : e + 16 ≤ 2 ^ 64) (ha : a % 16 = 0)
    (hfind : h.segments.find? (HeapCore.inChunkArea · c) = some seg)
    (hbase : wadd seg.base PROLOGUE_SIZE = a) (hepi : wsub seg.endAddr EPILOGUE_SIZE = e) :
    ∃ pre' post' l r m', h.dealloc m (c + 16) = some ({ h with
            freeBytes := wadd h.freeBytes sz
            allocCount := wsub h.allocCount 1 }, m') ∧
      DropLast pre pre' l ∧ DropHead post post' r ∧
      Fenced m' a true (pre' ++ ⟨l + sz + r, false⟩ :: post') e ∧
      (∀ x, x + l < c + 8 ∨ c + sz + r + 16 ≤ x → m' x = m x) ∧
      (∀ y, c ≤ y + l → y < c + sz + r → y % 16 = c % 16 →
        (y = c ∨ flagsOf m y &&& IN_USE = 0) → flagsOf m' y &&& IN_USE = 0) := by
  obtain ⟨hpre, hcell⟩ := fenced_append.1 hf
  rw [← hc] at hpre hcell
  obtain ⟨hmin, hmod, hhead, -, hpost⟩ := fenced_cons.1 hcell
  have hend := hpost.1.end_eq
  have hcmod := hpre.span_mod
  have hmin' := hmin
  have hmod' := hmod
  simp only [MIN_CHUNK, CHUNK_ALIGN] at hmin' hmod'
  obtain ⟨pre', l, m₁, hback, hdl, hlast, hl16, hpre', hflag, hm₁⟩ :=
    coalesceBackward_eq hpre hhead hbase (by omega) hmin'
  have hspl := hdl.span_eq
  -- the chunks after `c` are untouched by the backward step
  have hm₁_apply : ∀ x, x < c + 8 ∨ c + 16 ≤ x → m₁ x = m x := by
    intro x hx
    rcases hm₁ with ⟨-, rfl⟩ | ⟨-, rfl⟩
    · rfl
    · exact setHeader_apply ⟨by omega, hx⟩
  have hpost₁ : Fenced m₁ (c + sz) true post e :=
    hpost.congr he fun x h1 _ => hm₁_apply x (by omega)
  obtain ⟨post', r, m₂, u, hloop, hdh, hused, hr16, hpost', hm₂⟩ :=
    absorb_eq (s := sz + l) hpost₁ he (by omega)
  have hspr := hdh.span_eq
  have hm₂_apply : ∀ x, x < c + sz + 8 ∨ c + sz + r ≤ x → m₂ x = m₁ x := by
    intro x hx
    rcases hm₂ with ⟨-, rfl⟩ | ⟨hr, rfl⟩
    · rfl
    · exact setHeader_apply (by omega)
  have hlo : a + span pre' + l = c := by omega
  have hag : ∀ x, x < a + span pre' + 8 ∨ c + sz + r ≤ x → m₂ x = m x := by
    intro x hx
    rw [hm₂_apply x (by omega), hm₁_apply x (by omega)]
  have hpost'' : Fenced m (c + sz + r) u post' e :=
    hpost'.congr he fun x h1 _ => (hm₁_apply x (by omega)).symm
  have htotal : c + sz + r - (a + span pre') = l + sz + r := by omega
  have hflag₂ : flagsOf m₂ (a + span pre') &&& PREV_IN_USE = PREV_IN_USE := by
    rw [flagsOf_congr (m := m₁) (by omega) fun x h1 h2 => hm₂_apply x (Or.inl (by omega))]
    exact hflag
  have hfinal := finishFree_fenced hpre' hlast hpost'' hused he (by omega) (by omega)
    hag hflag₂
  rw [htotal] at hfinal
  refine ⟨pre', post', l, r, HeapCore.finishFree m₂ (a + span pre') (l + sz + r) (c + sz + r), ?_,
    hdl, hdh, hfinal, ?_, ?_⟩
  · have hptr : ¬ (c + 16 = 0) := by omega
    have halign : ¬ ((c + 16) % CHUNK_ALIGN ≠ 0) := by simp only [CHUNK_ALIGN]; omega
    have hsub : wsub (c + 16) HEADER_SIZE = c := by
      rw [HEADER_SIZE, wsub_of_le (by omega) (by omega)]
      omega
    have hinuse : ¬ (flagsOf m c &&& IN_USE = 0) := by
      rw [hhead.inUse_iff]
      simp
    have hsane : ¬ (sz % CHUNK_ALIGN ≠ 0 ∨ sz < MIN_CHUNK) := by
      rintro (h | h)
      · exact h hmod
      · omega
    have hwadd : wadd c sz = c + sz := wadd_of_lt (by omega)
    have hinside : ¬ (e < c + sz + r) := by omega
    have hsum : sz + l + r = l + sz + r := by omega
    rw [HeapCore.dealloc, if_neg hptr, if_neg halign]
    simp only [hsub, hfind, hhead.1]
    rw [if_neg hinuse, if_neg hsane, hback]
    show h.mergeForward m₁ (wsub seg.endAddr EPILOGUE_SIZE) c sz (a + span pre') (sz + l) = _
    rw [HeapCore.mergeForward, hwadd, hepi, hloop, Option.map_some]
    show some (if e < c + sz + r then _ else _) = _
    rw [if_neg hinside, hsum]
  · intro x hx
    rw [finishFree_apply (by omega) (by omega) (by omega)]
    exact hag x (by omega)
  · intro y hy1 hy2 hy16 hy
    by_cases hfirst : y = a + span pre'
    · -- the header of the merged chunk itself
      obtain ⟨-, hcell'⟩ := fenced_append.1 hfinal
      obtain ⟨-, -, hh, -, -⟩ := fenced_cons.1 hcell'
      rw [hfirst]
      exact hh.inUse_iff.2 rfl
    · have hback' : flagsOf m₁ y &&& IN_USE = 0 := by
        rcases hm₁ with ⟨hl0, rfl⟩ | ⟨-, rfl⟩
        · exact hy.resolve_left (by omega)
        · exact quiet_setHeader_zero (by omega) (by omega) (by omega) hy
      have hfwd : flagsOf m₂ y &&& IN_USE = 0 := by
        rcases hm₂ with ⟨-, rfl⟩ | ⟨-, rfl⟩
        · exact hback'
        · exact quiet_setHeader_zero (by omega) (by omega) (by omega) (Or.inr hback')
      rw [flagsOf_congr (m := m₂) (by omega) fun x h1 h2 =>
        finishFree_apply (by omega) (by omega) (by omega)]
      exact hfwd

end Free

end PlanckOS.Heap
