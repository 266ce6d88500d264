import PlanckOS.Heap.Core
import PlanckOS.Lib.Tiling

/-!
# Segments as tilings by chunks

The cells of a tiling are the chunks of a segment. `Tiles m a pu cs b` says that the memory `m`
stores the chunks `cs` one after the other from `a` up to `b`, `pu` being the in-use state of
whatever lies before `a`: sizes are multiples of 16 and at least 32, both flag bits are right,
every free chunk has its size repeated in the `prev_size` word after it, and no two free chunks are
neighbours. `Fenced` adds the epilogue at `b`.

Both predicates read the size words in `[a + 8, b + 8)` and the footers there, nothing else
(`Tiles.congr`), and split at any chunk (`tiles_append`). The operations rewrite a few words at
one seam, so each of them is verified by splitting there and reassembling.
-/

set_option autoImplicit false

namespace PlanckOS.Heap

open Lib.Word Lib.ByteMemory Lib.Loop Lib.Tiling

variable {m m' : Mem} {a x size flags b e s needed : Nat}
  {used prev pu : Bool} {cs xs ys : List Cell}

/-! ## Header words -/

/-- The memories agree on `[lo, hi)`. -/
def AgreeOn (m m' : Mem) (lo hi : Nat) : Prop := ∀ x, lo ≤ x → x < hi → m' x = m x

/-- The size word of the chunk at `a` holds `size` and the two flags. -/
def Header (m : Mem) (a size : Nat) (used prev : Bool) : Prop :=
  sizeOf m a = size ∧ flagsOf m a = used.toNat + 2 * prev.toNat

theorem sizeOf_eq (ha : a + 16 ≤ 2 ^ 64) : sizeOf m a = readWord m (a + 8) / 8 * 8 := by
  rw [sizeOf, wadd_of_lt (by omega)]
  exact land_high_mask (w := 64) (k := 3) (by decide) (readWord_lt m _)

theorem flagsOf_eq (ha : a + 16 ≤ 2 ^ 64) : flagsOf m a = readWord m (a + 8) % 8 := by
  rw [flagsOf, wadd_of_lt (by omega)]
  exact land_seven _

theorem prevSizeOf_eq (m : Mem) (a : Nat) : prevSizeOf m a = readWord m a / 8 * 8 :=
  land_high_mask (w := 64) (k := 3) (by decide) (readWord_lt m _)

theorem setHeader_apply
    (h : a + 16 ≤ 2 ^ 64 ∧ (x < a + 8 ∨ a + 16 ≤ x)) : setHeader m a size flags x = m x := by
  rw [setHeader, wadd_of_lt (by omega)]
  exact writeWord_apply_of_outside m _ (by omega)

theorem setPrevSize_apply (h : x < a ∨ a + 8 ≤ x) : setPrevSize m a size x = m x :=
  writeWord_apply_of_outside m _ h

theorem setHeader_word (m : Mem) (ha : a + 16 ≤ 2 ^ 64)
    (hs : size % 8 = 0) (hlt : size < 2 ^ 64) (hf : flags < 8) :
    readWord (setHeader m a size flags) (a + 8) = size + flags := by
  rw [setHeader, wadd_of_lt (by omega), lor_low_field (k := 3) hs hf]
  exact readWord_writeWord_same m _ (by omega)

theorem sizeOf_setHeader (m : Mem) (ha : a + 16 ≤ 2 ^ 64)
    (hs : size % 8 = 0) (hlt : size < 2 ^ 64) (hf : flags < 8) :
    sizeOf (setHeader m a size flags) a = size := by
  rw [sizeOf_eq ha, setHeader_word m ha hs hlt hf]
  omega

theorem flagsOf_setHeader (m : Mem) (ha : a + 16 ≤ 2 ^ 64)
    (hs : size % 8 = 0) (hlt : size < 2 ^ 64) (hf : flags < 8) :
    flagsOf (setHeader m a size flags) a = flags := by
  rw [flagsOf_eq ha, setHeader_word m ha hs hlt hf]
  omega

theorem header_setHeader (m : Mem) (a size flags : Nat) (used prev : Bool)
    (ha : a + 16 ≤ 2 ^ 64) (hs : size % 8 = 0) (hlt : size < 2 ^ 64)
    (hf : flags = used.toNat + 2 * prev.toNat) :
    Header (setHeader m a size flags) a size used prev := by
  have hf8 : flags < 8 := by
    cases used <;> cases prev <;> simp at hf <;> omega
  exact ⟨sizeOf_setHeader m ha hs hlt hf8, (flagsOf_setHeader m ha hs hlt hf8).trans hf⟩

theorem readWord_setPrevSize (m : Mem) (a : Nat) (hlt : size < 2 ^ 64) :
    readWord (setPrevSize m a size) a = size :=
  readWord_writeWord_same m a hlt

/-- A stored footer is read as it is: sizes have no low bits. -/
theorem prevSizeOf_of_word (h : readWord m a = size)
    (hs : size % 16 = 0) : prevSizeOf m a = size := by
  rw [prevSizeOf_eq, h]
  omega

theorem Header.congr (h : Header m a size used prev)
    (ha : a + 16 ≤ 2 ^ 64) (hag : AgreeOn m m' (a + 8) (a + 16)) : Header m' a size used prev := by
  have hw : readWord m' (a + 8) = readWord m (a + 8) :=
    readWord_congr fun x h1 h2 => hag x h1 (by omega)
  refine ⟨?_, ?_⟩
  · rw [sizeOf_eq ha, hw, ← sizeOf_eq ha]
    exact h.1
  · rw [flagsOf_eq ha, hw, ← flagsOf_eq ha]
    exact h.2

theorem Header.inUse_iff (h : Header m a size used prev) :
    flagsOf m a &&& IN_USE = 0 ↔ used = false := by
  rw [h.2]
  cases used <;> cases prev <;> decide

theorem Header.prevInUse_iff (h : Header m a size used prev) :
    flagsOf m a &&& PREV_IN_USE = 0 ↔ prev = false := by
  rw [h.2]
  cases used <;> cases prev <;> decide

/-! ## Tilings in memory -/

/-- The chunks `cs` are stored from `a` up to `b`; `pu` is the in-use state before `a`. -/
def Tiles (m : Mem) : Nat → Bool → List Cell → Nat → Prop
  | a, _, [], b => a = b
  | a, pu, c :: cs, b =>
      MIN_CHUNK ≤ c.size ∧ c.size % CHUNK_ALIGN = 0 ∧ Header m a c.size c.used pu ∧
        (c.used = false → pu = true ∧ readWord m (a + c.size) = c.size) ∧
        Tiles m (a + c.size) c.used cs b

/-- The chunks `cs` from `a`, followed by the epilogue at `e`. -/
def Fenced (m : Mem) (a : Nat) (pu : Bool) (cs : List Cell) (e : Nat) : Prop :=
  Tiles m a pu cs e ∧ Header m e EPILOGUE_SIZE true (lastUsed pu cs)

theorem Tiles.end_eq (h : Tiles m a pu cs b) : b = a + span cs := by
  induction cs generalizing a pu with
  | nil => exact h.symm
  | cons c cs ih =>
    have := ih h.2.2.2.2
    simp only [span]
    omega

theorem Tiles.coalesced (h : Tiles m a pu cs b) : Coalesced pu cs := by
  induction cs generalizing a pu with
  | nil => trivial
  | cons c cs ih =>
    obtain ⟨hmin, -, -, hfree, hrest⟩ := h
    exact ⟨by simp only [MIN_CHUNK] at hmin; omega, fun hf => (hfree hf).1, ih hrest⟩

theorem tiles_append : Tiles m a pu (xs ++ ys) b ↔
      Tiles m a pu xs (a + span xs) ∧ Tiles m (a + span xs) (lastUsed pu xs) ys b := by
  induction xs generalizing a pu with
  | nil => simp [Tiles, span, lastUsed]
  | cons c cs ih =>
    simp only [List.cons_append, Tiles, ih, span, lastUsed, Nat.add_assoc, and_assoc]

/-- A tiling reads the words in `[a + 8, b + 8)` only. -/
theorem Tiles.congr (h : Tiles m a pu cs b) (hb : b + 16 ≤ 2 ^ 64)
    (hag : AgreeOn m m' (a + 8) (b + 8)) :
    Tiles m' a pu cs b := by
  induction cs generalizing a pu with
  | nil => exact h
  | cons c cs ih =>
    have hend := h.end_eq
    obtain ⟨hmin, hmod, hhead, hfree, hrest⟩ := h
    simp only [MIN_CHUNK] at hmin
    simp only [span] at hend
    refine ⟨hmin, hmod, ?_, fun hf => ⟨(hfree hf).1, ?_⟩, ?_⟩
    · exact hhead.congr (by omega) fun x h1 h2 => hag x h1 (by omega)
    · rw [readWord_congr fun x h1 h2 => hag x (by omega) (by omega)]
      exact (hfree hf).2
    · exact ih hrest fun x h1 h2 => hag x (by omega) h2

theorem Fenced.congr (h : Fenced m a pu cs e) (he : e + 16 ≤ 2 ^ 64)
    (hag : AgreeOn m m' (a + 8) (e + 16)) :
    Fenced m' a pu cs e := by
  have hend := h.1.end_eq
  exact ⟨h.1.congr he fun x h1 h2 => hag x h1 (by omega),
    h.2.congr he fun x h1 h2 => hag x (by omega) h2⟩

theorem fenced_append : Fenced m a pu (xs ++ ys) e ↔
      Tiles m a pu xs (a + span xs) ∧ Fenced m (a + span xs) (lastUsed pu xs) ys e := by
  simp only [Fenced, tiles_append, lastUsed_append, and_assoc]

theorem fenced_cons {pu u : Bool} :
    Fenced m a pu (⟨s, u⟩ :: cs) e ↔ MIN_CHUNK ≤ s ∧ s % CHUNK_ALIGN = 0 ∧ Header m a s u pu ∧
        (u = false → pu = true ∧ readWord m (a + s) = s) ∧ Fenced m (a + s) u cs e := by
  simp only [Fenced, Tiles, lastUsed, and_assoc]

/-- Size of the first chunk, the epilogue when there is none. -/
def headSize : List Cell → Nat
  | [] => EPILOGUE_SIZE
  | c :: _ => c.size

/-- In-use state of the first chunk, the epilogue when there is none. -/
def headUsed : List Cell → Bool
  | [] => true
  | c :: _ => c.used

theorem Fenced.head (h : Fenced m a pu cs e) : Header m a (headSize cs) (headUsed cs) pu := by
  cases cs with
  | nil =>
    obtain ⟨rfl, hhead⟩ := h
    exact hhead
  | cons c cs => exact (fenced_cons.1 h).2.2.1

theorem Fenced.headSize_mod (h : Fenced m a pu cs e) : headSize cs % 16 = 0 := by
  cases cs with
  | nil => rfl
  | cons c cs => exact (fenced_cons.1 h).2.1

theorem Fenced.headSize_le (h : Fenced m a pu cs e) : a + headSize cs ≤ e + 16 := by
  have hend := h.1.end_eq
  cases cs with
  | nil => simp only [headSize, EPILOGUE_SIZE, span] at *; omega
  | cons c cs => simp only [headSize, span] at *; omega

/-- The chunks after a seam stay as they are when the header at the seam takes a new
`PREV_IN_USE` bit and nothing behind it changes. -/
theorem Fenced.retag {pu pu' : Bool} (h : Fenced m a pu cs e)
    (he : e + 16 ≤ 2 ^ 64) (hag : AgreeOn m m' (a + 16) (e + 16))
    (hhead : Header m' a (headSize cs) (headUsed cs) pu')
    (hfree : headUsed cs = false → pu' = true) :
    Fenced m' a pu' cs e := by
  cases cs with
  | nil =>
    obtain ⟨rfl, -⟩ := h
    exact ⟨rfl, hhead⟩
  | cons c cs =>
    have hend := h.1.end_eq
    obtain ⟨hmin, hmod, -, hfoot, hrest⟩ := fenced_cons.1 h
    simp only [MIN_CHUNK] at hmin
    simp only [span] at hend
    refine fenced_cons.2 ⟨hmin, hmod, hhead, fun hf => ⟨hfree hf, ?_⟩, ?_⟩
    · rw [readWord_congr fun x h1 h2 => hag x (by omega) (by omega)]
      exact (hfoot hf).2
    · exact hrest.congr he fun x h1 h2 => hag x (by omega) h2

/-- A tiling does not read the payload of a used chunk. -/
theorem Fenced.payload {pre post : List Cell}
    (h : Fenced m a pu (pre ++ ⟨s, true⟩ :: post) e) (he : e + 16 ≤ 2 ^ 64)
    (hag : ∀ x, x < a + span pre + 16 ∨ a + span pre + s ≤ x → m' x = m x) :
    Fenced m' a pu (pre ++ ⟨s, true⟩ :: post) e := by
  obtain ⟨hpre, hcell⟩ := fenced_append.1 h
  obtain ⟨hmin, hmod, hhead, -, hpost⟩ := fenced_cons.1 hcell
  have hend := hpost.1.end_eq
  refine fenced_append.2 ⟨?_, fenced_cons.2 ⟨hmin, hmod, ?_, fun hf => by simp at hf, ?_⟩⟩
  · exact hpre.congr (by omega) fun x _ h2 => hag x (by omega)
  · exact hhead.congr (by omega) fun x _ h2 => hag x (by omega)
  · exact hpost.congr he fun x h1 _ => hag x (by omega)

/-! ## Addresses of chunks -/

theorem Tiles.span_mod (h : Tiles m a pu cs b) : span cs % 16 = 0 := by
  induction cs generalizing a pu with
  | nil => rfl
  | cons c cs ih =>
    have hmod := h.2.1
    have := ih h.2.2.2.2
    simp only [CHUNK_ALIGN] at hmod
    simp only [span]
    omega

/-- What is known of a chunk stored at `x`. -/
theorem Tiles.placed_facts {c : Cell} (h : Tiles m a pu cs b) (hx : (x, c) ∈ placed a cs) :
    MIN_CHUNK ≤ c.size ∧ c.size % CHUNK_ALIGN = 0 ∧ a ≤ x ∧ (x - a) % 16 = 0 ∧
      x + c.size ≤ b ∧ sizeOf m x = c.size ∧ (flagsOf m x &&& IN_USE = 0 ↔ c.used = false) := by
  have hle := placed_le hx
  have hend := h.end_eq
  obtain ⟨pre, post, rfl, rfl⟩ := mem_placed_iff.1 hx
  obtain ⟨hpre, hmin, hmod, hhead, -, -⟩ := tiles_append.1 h
  refine ⟨hmin, hmod, hle.1, ?_, by omega, hhead.1, hhead.inUse_iff⟩
  rw [Nat.add_sub_cancel_left]
  exact hpre.span_mod

/-! ## The first-fit walk -/

/-- Address of the first free chunk of at least `needed` bytes. -/
def firstFit (needed : Nat) : Nat → List Cell → Option Nat
  | _, [] => none
  | a, c :: cs => if c.used = false ∧ needed ≤ c.size then some a
      else firstFit needed (a + c.size) cs

theorem firstFit_eq_some (h : firstFit needed a cs = some x) :
    ∃ pre c post, cs = pre ++ c :: post ∧ x = a + span pre ∧ c.used = false ∧ needed ≤ c.size ∧
      ∀ d ∈ pre, d.used = false → d.size < needed := by
  induction cs generalizing a with
  | nil => simp [firstFit] at h
  | cons c cs ih =>
    by_cases hfit : c.used = false ∧ needed ≤ c.size
    · rw [firstFit, if_pos hfit, Option.some.injEq] at h
      exact ⟨[], c, cs, rfl, by simp [span, h], hfit.1, hfit.2, by simp⟩
    · rw [firstFit, if_neg hfit] at h
      obtain ⟨pre, d, post, rfl, rfl, hdf, hds, hall⟩ := ih h
      refine ⟨c :: pre, d, post, rfl, by simp only [span]; omega, hdf, hds, ?_⟩
      intro e he hef
      rcases List.mem_cons.1 he with rfl | he
      · by_contra hge
        exact hfit ⟨hef, by omega⟩
      · exact hall e he hef

theorem firstFit_eq_none (h : firstFit needed a cs = none) :
    ∀ c ∈ cs, c.used = false → c.size < needed := by
  induction cs generalizing a with
  | nil => simp
  | cons c cs ih =>
    by_cases hfit : c.used = false ∧ needed ≤ c.size
    · simp [firstFit, hfit] at h
    · rw [firstFit, if_neg hfit] at h
      intro d hd hdf
      rcases List.mem_cons.1 hd with rfl | hd
      · by_contra hge
        exact hfit ⟨hdf, by omega⟩
      · exact ih h d hd hdf

/-- The walk finds the first fit of the stored chunks. -/
theorem loop_fitStep {n : Nat} (h : Fenced m a pu cs e) (he : e + 16 ≤ 2 ^ 64)
    (hn : cs.length < n) :
    loop (HeapCore.fitStep m needed e) n a = some (firstFit needed a cs) := by
  induction cs generalizing a pu n with
  | nil =>
    obtain ⟨rfl, -⟩ := h
    obtain ⟨k, rfl⟩ : ∃ k, n = k + 1 := ⟨n - 1, by simp at hn; omega⟩
    exact loop_done (by simp [HeapCore.fitStep, firstFit])
  | cons c cs ih =>
    obtain ⟨k, rfl⟩ : ∃ k, n = k + 1 := ⟨n - 1, by simp at hn; omega⟩
    have hend := h.1.end_eq
    obtain ⟨hmin, hmod, hhead, -, hrest⟩ := fenced_cons.1 h
    simp only [span] at hend
    have hmin' := hmin
    simp only [MIN_CHUNK] at hmin'
    have hlt : a < e := by omega
    have hsane : ¬ (c.size < MIN_CHUNK ∨ c.size % CHUNK_ALIGN ≠ 0) := by
      rintro (h | h)
      · omega
      · exact h hmod
    by_cases hfit : c.used = false ∧ needed ≤ c.size
    · rw [firstFit, if_pos hfit]
      refine loop_done ?_
      have : flagsOf m a &&& IN_USE = 0 ∧ needed ≤ c.size := ⟨hhead.inUse_iff.2 hfit.1, hfit.2⟩
      simp only [HeapCore.fitStep, hhead.1, if_pos hlt, if_neg hsane, if_pos this]
    · have hnot : ¬ (flagsOf m a &&& IN_USE = 0 ∧ needed ≤ c.size) := by
        rw [hhead.inUse_iff]
        exact hfit
      have hstep : HeapCore.fitStep m needed e a = .next (a + c.size) := by
        simp only [HeapCore.fitStep, hhead.1, if_pos hlt, if_neg hsane, if_neg hnot,
          wadd_of_lt (show a + c.size < 2 ^ 64 by omega)]
      rw [firstFit, if_neg hfit, loop_next hstep]
      exact ih hrest (by simp at hn; omega)

end PlanckOS.Heap
