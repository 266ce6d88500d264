import PlanckOS.Fat32.Clusters

/-!
# Writing directory slots

Every operation that changes a directory reads a cluster, edits the 32 bytes of one slot and writes
the cluster back. `Edits buf buf' i` says that only slot `i` differs, and the lemmas on `entryAt`
turn the edits of the source into edits of the slot's own bytes. `SlotEdit` puts the two together;
such edits compose, and `SlotEdit.write` is the image after one. `findSlot_chain` is the search
for a slot that is not in use.
-/

set_option autoImplicit false

namespace PlanckOS.Fat32

open Lib.Word Lib.Fallible Lib.Chain FatVolume List

variable {vol : FatVolume} {img img' : Image} {buf buf' : Buf} {c i v off n : Nat} {p q : Slot}
  {d : Disk} {f : Buf → Buf} {l m : List Nat}

/-! ## Edits of one slot -/

/-- The buffers agree outside of slot `i`. -/
def Edits (buf buf' : Buf) (i : Nat) : Prop := ∀ k, k / 32 ≠ i → buf' k = buf k

section Edits

variable {buf'' : Buf} {a : Nat}
  {bytes : Bytes} {g : Entry → Entry}

theorem Edits.trans (h : Edits buf buf' i) (h' : Edits buf' buf'' i) : Edits buf buf'' i :=
  fun k hk => (h' k hk).trans (h k hk)

theorem edits_store (buf : Buf) (i : Nat) (h : a + bytes.length ≤ 32) :
    Edits buf (buf.store (i * DIR_SIZE + a) bytes) i := by
  intro k hk
  rw [Buf.store, if_neg]
  rw [DIR_SIZE]
  omega

theorem edits_set (buf : Buf) (i : Nat) (h : a < 32) (b : UInt8) :
    Edits buf (buf.set (i * DIR_SIZE + a) b) i := by
  intro k hk
  rw [Buf.set, if_neg]
  rw [DIR_SIZE]
  omega

theorem edits_storeStart (buf : Buf) (i v : Nat) :
    Edits buf (storeStart buf (i * DIR_SIZE) v) i := by
  exact (edits_store buf i (by rw [bytes16_length]; decide)).trans
    (edits_store _ i (by rw [bytes16_length]; decide))

theorem entryAt_store (buf : Buf) (i : Nat) (h : a + bytes.length ≤ 32) :
    entryAt (buf.store (i * DIR_SIZE + a) bytes) i = Buf.store (entryAt buf i) a bytes := by
  funext k
  rw [entryAt, Buf.store, Buf.store, entryAt]
  by_cases hk : k < DIR_SIZE
  · rw [if_pos hk]
    by_cases hin : a ≤ k ∧ k < a + bytes.length
    · rw [if_pos hin, if_pos (by omega),
        show i * DIR_SIZE + k - (i * DIR_SIZE + a) = k - a by omega]
    · rw [if_neg hin, if_neg (by omega), if_pos hk]
  · have hge : 32 ≤ k := Nat.not_lt.mp hk
    rw [if_neg hk, if_neg (by omega), if_neg hk]

theorem entryAt_set (buf : Buf) (i : Nat) (h : a < 32) (b : UInt8) :
    entryAt (buf.set (i * DIR_SIZE + a) b) i = Buf.set (entryAt buf i) a b := by
  funext k
  rw [entryAt, Buf.set, Buf.set, entryAt]
  by_cases hk : k < DIR_SIZE
  · rw [if_pos hk]
    by_cases hin : k = a
    · rw [if_pos hin, if_pos (by omega)]
    · rw [if_neg hin, if_neg (by omega), if_pos hk]
  · have hge : 32 ≤ k := Nat.not_lt.mp hk
    rw [if_neg hk, if_neg (by omega), if_neg hk]

theorem entryAt_storeStart (buf : Buf) (i v : Nat) :
    entryAt (storeStart buf (i * DIR_SIZE) v) i = storeStart (entryAt buf i) 0 v := by
  rw [storeStart, storeStart, entryAt_store _ i (by rw [bytes16_length]; decide),
    entryAt_store _ i (by rw [bytes16_length]; decide)]

theorem slot_end (hi : i < vol.slotsPerCluster) : i * 32 + 32 ≤ vol.clusterSize := by
  have hi' : i < vol.clusterSize / 32 := hi
  omega

/-- The slot that was edited. -/
theorem slot_of_edit (hi : i < vol.slotsPerCluster) :
    (img.setData c (vol.clip buf)).slot (c, i) = entryAt buf i := by
  have hend := slot_end hi
  funext k
  rw [Image.slot, Image.setData_self, entryAt, entryAt, DIR_SIZE]
  by_cases hk : k < 32
  · rw [if_pos hk, if_pos hk, clip, if_pos (by omega)]
  · rw [if_neg hk, if_neg hk]

/-- All other slots. -/
theorem slot_of_edit_ne (h : Edits (img.data c) buf i) (hq : q ≠ (c, i))
    (hi : q.2 < vol.slotsPerCluster) : (img.setData c (vol.clip buf)).slot q = img.slot q := by
  obtain ⟨c', j⟩ := q
  by_cases hc : c' = c
  · subst hc
    have hj : j ≠ i := fun h => hq (h ▸ rfl)
    have hend := slot_end hi
    funext k
    rw [Image.slot, Image.setData_self, Image.slot, entryAt, entryAt, DIR_SIZE]
    by_cases hk : k < 32
    · simp only at hend
      rw [if_pos hk, if_pos hk, clip, if_pos (by omega), h _ (by omega)]
    · rw [if_neg hk, if_neg hk]
  · rw [Image.slot, Image.slot, Image.setData_ne _ hc]

/-- The change `f` of a cluster edits slot `i` only, and acts on its bytes as `g`. -/
structure SlotEdit (i : Nat) (f : Buf → Buf) (g : Entry → Entry) : Prop where
  edits : ∀ buf, Edits buf (f buf) i
  entry : ∀ buf, entryAt (f buf) i = g (entryAt buf i)

/-- Edits of one slot compose. -/
theorem SlotEdit.comp {f' : Buf → Buf} {g g' : Entry → Entry} (h : SlotEdit i f g)
    (h' : SlotEdit i f' g') : SlotEdit i (fun buf => f' (f buf)) fun e => g' (g e) where
  edits buf := (h.edits buf).trans (h'.edits _)
  entry buf := by rw [h'.entry, h.entry]

theorem slotEdit_store (i : Nat) (h : a + bytes.length ≤ 32) :
    SlotEdit i (fun buf => buf.store (i * DIR_SIZE + a) bytes) fun e => Buf.store e a bytes where
  edits buf := edits_store buf i h
  entry buf := entryAt_store buf i h

theorem slotEdit_set (i : Nat) (h : a < 32) (b : UInt8) :
    SlotEdit i (fun buf => buf.set (i * DIR_SIZE + a) b) fun e => Buf.set e a b where
  edits buf := edits_set buf i h b
  entry buf := entryAt_set buf i h b

theorem slotEdit_storeStart (i v : Nat) :
    SlotEdit i (fun buf => storeStart buf (i * DIR_SIZE) v) fun e => storeStart e 0 v where
  edits buf := edits_storeStart buf i v
  entry buf := entryAt_storeStart buf i v

/-- From `img` to `img'` only slot `p` is written. -/
structure SlotWritten (vol : FatVolume) (img img' : Image) (p : Slot) : Prop where
  fat : img'.fat = img.fat
  data : ∀ c, c ≠ p.1 → img'.data c = img.data c
  slots : ∀ q, q ≠ p → q.2 < vol.slotsPerCluster → img'.slot q = img.slot q

theorem SlotWritten.next_eq (h : SlotWritten vol img img' p) : img'.next = img.next := by
  funext c
  rw [Image.next, Image.next, h.fat]

theorem slotWritten_of_edit (h : Edits (img.data c) buf i) :
    SlotWritten vol img (img.setData c (vol.clip buf)) (c, i) where
  fat := rfl
  data _ hx := img.setData_ne hx
  slots _ hq hi := slot_of_edit_ne h hq hi

variable (hg : Geometry vol) (hs : Shows vol d img) (hp : vol.Valid p.1)
include hg hs hp

/-- **Writing a cluster back with an edited slot.** -/
theorem SlotEdit.write (hi : p.2 < vol.slotsPerCluster) (h : SlotEdit p.2 f g) :
    ∃ d' img', vol.writeCluster p.1 (f (img.data p.1)) d = .ok () d' ∧
      Shows vol d' img' ∧ SlotWritten vol img img' p ∧ img'.slot p = g (img.slot p) := by
  obtain ⟨d', hrun, hs'⟩ := writeCluster_shows hg hs hp (f (img.data p.1))
  exact ⟨d', _, hrun, hs', slotWritten_of_edit (h.edits _), (slot_of_edit hi).trans (h.entry _)⟩

/-- The same for an edit of the first sector of the cluster, as `f_sync` does it. -/
theorem SlotEdit.writeSector (hi : p.2 * 32 + 32 ≤ 512) (h : SlotEdit p.2 f g) :
    ∃ d' img', writeSector (vol.clusterToLba p.1)
        (Sector.ofBuf (f (d (vol.clusterToLba p.1)).buf)) d = .ok () d' ∧
      Shows vol d' img' ∧ SlotWritten vol img img' p ∧ img'.slot p = g (img.slot p) := by
  have hlba := hg.sector_eq hp hg.spc_pos
  have hfirst : vol.clusterToLba p.1 = (vol.clusterToLba p.1 + 0) % 2 ^ 32 := by
    rw [hlba, hg.clusterToLba_eq hp, Nat.add_zero]
  -- the sector shows the first 512 bytes of the cluster
  have hsector : ∀ j < 512, (d (vol.clusterToLba p.1)).buf j = img.data p.1 j := by
    intro j hj
    rw [hfirst, sector_shows hg hs.view_eq hp hg.spc_pos hj, Nat.zero_mul, Nat.zero_add]
  have hentry : entryAt (d (vol.clusterToLba p.1)).buf p.2 = img.slot p := by
    funext k
    rw [Image.slot, entryAt, entryAt, DIR_SIZE]
    by_cases hk : k < 32
    · rw [if_pos hk, if_pos hk, hsector _ (by omega)]
    · rw [if_neg hk, if_neg hk]
  have hstore := setSector_shows hg hs hp hg.spc_pos
    (Sector.ofBuf (f (d (vol.clusterToLba p.1)).buf))
  rw [← hlba, ← hfirst] at hstore
  have hdata :
    ∀ o, (img.setSector p.1 0 (Sector.ofBuf (f (d (vol.clusterToLba p.1)).buf))).data p.1 o
      = if o < 512 then f (d (vol.clusterToLba p.1)).buf o else img.data p.1 o := by
    intro o
    rw [Image.setSector, Image.setData_self]
    by_cases ho : o < 512
    · rw [if_pos (by omega), if_pos ho, Nat.mod_eq_of_lt ho, Sector.buf_ofBuf _ ho]
    · rw [if_neg (by omega), if_neg ho]
  refine ⟨_, _, writeSector_disk _ _ _, hstore, ⟨rfl, fun _ hx => img.setData_ne hx, ?_⟩, ?_⟩
  · rintro ⟨c, j⟩ hq _
    by_cases hc : c = p.1
    · subst hc
      have hj : j ≠ p.2 := fun hj => hq (hj ▸ rfl)
      funext k
      rw [Image.slot, Image.slot, entryAt, entryAt, DIR_SIZE]
      by_cases hk : k < 32
      · rw [if_pos hk, if_pos hk, hdata]
        by_cases ho : j * 32 + k < 512
        · rw [if_pos ho, h.edits _ _ (by omega), hsector _ ho]
        · rw [if_neg ho]
      · rw [if_neg hk, if_neg hk]
    · rw [Image.slot, Image.slot, Image.setSector, Image.setData_ne _ hc]
  · rw [← hentry, ← h.entry]
    funext k
    rw [Image.slot, entryAt, entryAt, DIR_SIZE]
    by_cases hk : k < 32
    · rw [if_pos hk, if_pos hk, hdata, if_pos (by omega)]
    · rw [if_neg hk, if_neg hk]

end Edits

/-! ## The bytes of an entry -/

section Bytes

variable {e e' : Entry}

/-- Name and attributes decide what an entry is. -/
theorem entry_kind_congr (h : ∀ k ≤ 0x0B, e' k = e k) :
    (LiveEntry e' ↔ LiveEntry e) ∧ (IsDirEntry e' ↔ IsDirEntry e) ∧ (IsDot e' ↔ IsDot e) := by
  have hattr : attrOf e' = attrOf e := by rw [attrOf, attrOf, h 0x0B le_rfl]
  have hfirst : e' 0 = e 0 := h 0 (by decide)
  have hname : nameBytes e' = nameBytes e := by
    apply map_congr_left
    intro k hk
    exact h k (by have := mem_range.mp hk; omega)
  refine ⟨?_, ?_, ?_⟩
  · rw [LiveEntry, LiveEntry, Hidden, Hidden, EndMarker, EndMarker, hattr, hfirst]
  · rw [IsDirEntry, IsDirEntry, hattr]
  · rw [IsDot, IsDot, IsDirEntry, IsDirEntry, hattr, hname]

theorem le16_store_self (buf : Buf) (off w : Nat) :
    (buf.store off (bytes16 w)).le16 off = w % 65536 := by
  have hbytes : ∀ i < 2, (buf.store off (bytes16 w)) (off + i) = leByte w i := by
    intro i hi
    have hlen := bytes16_length w
    rw [Buf.store, if_pos (by omega), Nat.add_sub_cancel_left]
    interval_cases i <;> rfl
  rw [Buf.le16, leVal_congr hbytes, leVal_leByte, show (256 : Nat) ^ 2 = 65536 by decide]

theorem le16_congr (h : ∀ i < 2, buf' (off + i) = buf (off + i)) :
    buf'.le16 off = buf.le16 off := leVal_congr h

/-- The start cluster stored is the one read back. -/
theorem startOf_storeStart (e : Entry) (hv : v < 2 ^ 32) : startOf (storeStart e 0 v) = v := by
  have hlow : (storeStart e 0 v).le16 0x1A = v % 65536 := by
    have hapart :
        (storeStart e 0 v).le16 0x1A = (e.store 0x1A (bytes16 (v % 65536))).le16 0x1A := by
      apply le16_congr
      intro i hi
      have hlen := bytes16_length (v / 65536)
      rw [storeStart, Nat.zero_add, Nat.zero_add]
      exact if_neg (by omega)
    rw [hapart, le16_store_self]
    omega
  have hhigh : (storeStart e 0 v).le16 0x14 = v / 65536 := by
    rw [storeStart, Nat.zero_add, Nat.zero_add, le16_store_self]
    omega
  rw [startOf, hlow, hhigh]
  omega

theorem storeStart_apply {k : Nat} (h : k < off + 0x14 ∨ off + 0x1C ≤ k) :
    storeStart buf off v k = buf k := by
  rw [storeStart, Buf.store, bytes16_length, if_neg (by omega), Buf.store, bytes16_length,
    if_neg (by omega)]

theorem encodeName_length (name : Bytes) : (encodeName name).length = 11 := by
  have hbase : (name.take (min ((name.findIdx? (· == 0x2E)).getD name.length) 8)).length ≤ 8 := by
    rw [length_take]
    omega
  rw [encodeName]
  cases name.findIdx? (· == 0x2E) with
  | none =>
    simp only [length_append, length_replicate, length_nil]
    simp only [Option.getD_none, length_take] at hbase ⊢
    omega
  | some d =>
    simp only [length_append, length_replicate, length_take, length_drop, Option.getD_some]
    omega

end Bytes

/-! ## The search for a slot -/

/-- The slot was never used or its entry is deleted. -/
def Vacant (e : Entry) : Prop := e 0 = 0 ∨ e 0 = 0xE5
  deriving Decidable

theorem Vacant.not_live {e : Entry} (h : Vacant e) : ¬ LiveEntry e := by
  rintro ⟨-, hm, hd⟩
  exact h.elim hm hd

/-- Slot `p` is the first vacant one of the directory from `c` on. -/
def FirstVacant (vol : FatVolume) (img : Image) (c : Nat) (p : Slot) : Prop :=
  ∃ l pre post, img.Chain vol c l ∧ vol.dirSlots l = pre ++ p :: post ∧
    (∀ q ∈ pre, ¬ Vacant (img.slot q)) ∧ Vacant (img.slot p)

theorem FirstVacant.vacant (h : FirstVacant vol img c p) : Vacant (img.slot p) := by
  obtain ⟨_, _, _, _, _, _, hp⟩ := h
  exact hp

theorem FirstVacant.index (h : FirstVacant vol img c p) : p.2 < vol.slotsPerCluster := by
  obtain ⟨l, pre, post, _, hslots, _, _⟩ := h
  exact (mem_dirSlots.mp (mem_iff_append.mpr ⟨_, _, hslots⟩)).2

theorem FirstVacant.mem (hg : Geometry vol) (hl : img.Chain vol c l)
    (h : FirstVacant vol img c p) : p ∈ vol.dirSlots l := by
  obtain ⟨l', pre, post, hl', hslots, _, _⟩ := h
  obtain rfl := hl.unique hg.not_stop hl'
  exact mem_iff_append.mpr ⟨_, _, hslots⟩

theorem FirstVacant.valid (hg : Geometry vol) (hl : img.Chain vol c l)
    (h : FirstVacant vol img c p) : vol.Valid p.1 :=
  hl.valid_of_mem (mem_dirSlots.mp (h.mem hg hl)).1

theorem FirstVacant.place (h : FirstVacant vol img c p) (hc : DirCluster vol img c) :
    DirCluster vol img p.1 := by
  obtain ⟨l, pre, post, hl, hslots, _, _⟩ := h
  have hmem := (mem_dirSlots.mp (mem_iff_append.mpr ⟨_, _, hslots⟩)).1
  exact hc.of_chain hl _ hmem

/-- There is one first vacant slot. -/
theorem FirstVacant.unique (hg : Geometry vol) (h : FirstVacant vol img c p)
    (h' : FirstVacant vol img c q) : p = q := by
  have hfind : ∀ {r : Slot} {l : List Nat} {pre post : List Slot},
      vol.dirSlots l = pre ++ r :: post → (∀ t ∈ pre, ¬ Vacant (img.slot t)) → Vacant (img.slot r) →
      (vol.dirSlots l).find? (fun t => decide (Vacant (img.slot t))) = some r := by
    intro r l pre post hslots hpre hr
    refine find?_eq_some_iff_append.mpr ⟨decide_eq_true hr, pre, post, hslots, ?_⟩
    intro t ht
    rw [decide_eq_false (hpre t ht)]
    rfl
  obtain ⟨l, pre, post, hl, hslots, hpre, hp⟩ := h
  obtain ⟨l', pre', post', hl', hslots', hpre', hq⟩ := h'
  obtain rfl := hl.unique hg.not_stop hl'
  exact Option.some.inj ((hfind hslots hpre hp).symm.trans (hfind hslots' hpre' hq))

/-- The slots of a cluster that the search passes, and where it stops. -/
theorem freeSlot_found {idx : Nat} (h : freeSlot buf i n = some idx) :
    ∃ k, idx = i + k ∧ k < n ∧ Vacant (entryAt buf idx) ∧
      ∀ j, i ≤ j → j < idx → ¬ Vacant (entryAt buf j) := by
  induction n generalizing i with
  | zero => cases h
  | succ n ih =>
    rw [freeSlot] at h
    by_cases hfree : entryAt buf i 0 = 0 ∨ entryAt buf i 0 = 0xE5
    · simp only [if_pos hfree, Option.some.injEq] at h
      subst h
      exact ⟨0, rfl, Nat.zero_lt_succ n, hfree, fun j h1 h2 => absurd h2 (Nat.not_lt.mpr h1)⟩
    · simp only [if_neg hfree] at h
      obtain ⟨k, rfl, hlt, hvac, hbefore⟩ := ih h
      refine ⟨k + 1, by omega, by omega, hvac, ?_⟩
      intro j h1 h2
      by_cases hj : j = i
      · exact hj ▸ hfree
      · exact hbefore j (by omega) h2

theorem freeSlot_none (h : freeSlot buf i n = none) :
    ∀ j, i ≤ j → j < i + n → ¬ Vacant (entryAt buf j) := by
  induction n generalizing i with
  | zero =>
    intro j h1 h2
    omega
  | succ n ih =>
    rw [freeSlot] at h
    by_cases hfree : entryAt buf i 0 = 0 ∨ entryAt buf i 0 = 0xE5
    · simp only [if_pos hfree] at h
      cases h
    · simp only [if_neg hfree] at h
      intro j h1 h2
      by_cases hj : j = i
      · exact hj ▸ hfree
      · exact ih h j (by omega) (by omega)

/-- A slot of a cluster splits its slots at its index. -/
theorem clusterSlots_split (hi : i < vol.slotsPerCluster) :
    ∃ pre post, vol.clusterSlots c = pre ++ (c, i) :: post ∧ ∀ q ∈ pre, q.1 = c ∧ q.2 < i := by
  obtain ⟨n, hn⟩ : ∃ n, vol.slotsPerCluster = i + (n + 1) := ⟨vol.slotsPerCluster - i - 1, by omega⟩
  refine ⟨(range' 0 i).map fun j => (c, j), (range' (i + 1) n).map fun j => (c, j), ?_, ?_⟩
  · rw [clusterSlots, hn, ← range'_append_1, map_append, Nat.zero_add, range'_succ, map_cons]
  · intro q hq
    obtain ⟨j, hj, rfl⟩ := mem_map.mp hq
    exact ⟨rfl, by have := mem_range'_1.mp hj; omega⟩

/-- The slots passed do not include the first vacant one. -/
theorem not_firstVacant (hg : Geometry vol) (hl : img.Chain vol c l)
    (hnone : ∀ q ∈ vol.dirSlots l, ¬ Vacant (img.slot q)) : ¬ FirstVacant vol img c p := by
  rintro ⟨l', pre, post, hl', hslots, -, hp⟩
  obtain rfl := hl.unique hg.not_stop hl'
  exact hnone p (mem_iff_append.mpr ⟨_, _, hslots⟩) hp

/-- **The search for a slot** stays in the directory and returns its first vacant slot, with the
bytes of its cluster. It fails when there is none. -/
theorem findSlot_chain (hg : Geometry vol) (hv : view vol d = img)
    (hl : img.Chain vol c l) : (findSlot vol c d).Returns
      (fun r d' => d' = d ∧ FirstVacant vol img c (r.1, r.2.1) ∧ r.2.2 = img.data r.1)
      fun _ d' => d' = d ∧ ∀ p, ¬ FirstVacant vol img c p := by
  have hnodup := hl.nodup hg.not_stop
  -- the clusters passed so far have no vacant slot
  apply returns_loopM (I := fun a t => (∃ l₁ l₂, l = l₁ ++ l₂ ∧ img.Chain vol a l₂ ∧
    ∀ q ∈ vol.dirSlots l₁, ¬ Vacant (img.slot q)) ∧ t = d) fun a => l.length - l.idxOf a
  · rintro a t ⟨⟨l₁, l₂, hsplit, hl₂, hpassed⟩, rfl⟩
    rw [findSlotStep]
    apply returns_bind_ok (readCluster_shows hg hv hl₂.head_valid)
    obtain ⟨rest, hrest⟩ := hl₂.eq_cons
    subst hrest
    cases hfree : freeSlot (img.data a) 0 vol.slotsPerCluster with
    | some idx =>
      obtain ⟨k, rfl, hlt, hvac, hbefore⟩ := freeSlot_found hfree
      rw [Nat.zero_add] at hvac hbefore
      obtain ⟨pre, post, hcut, hpre⟩ := clusterSlots_split (c := a) hlt
      refine ⟨rfl, ⟨l, vol.dirSlots l₁ ++ pre, post ++ vol.dirSlots rest, hl, ?_, ?_, ?_⟩, rfl⟩
      · rw [hsplit, dirSlots, flatMap_append, flatMap_cons, hcut]
        simp [dirSlots]
      · intro q hq
        rcases mem_append.mp hq with hq | hq
        · exact hpassed q hq
        · obtain ⟨hq1, hq2⟩ := hpre q hq
          rw [Image.slot, hq1]
          exact hbefore q.2 (Nat.zero_le _) hq2
      · rw [Image.slot, Nat.zero_add]
        exact hvac
    | none =>
      have hpassed' : ∀ q ∈ vol.dirSlots (l₁ ++ [a]), ¬ Vacant (img.slot q) := by
        intro q hq
        rw [dirSlots, flatMap_append, mem_append] at hq
        rcases hq with hq | hq
        · exact hpassed q hq
        · obtain ⟨hq1, hq2⟩ := mem_dirSlots.mp hq
          rw [Image.slot, mem_singleton.mp hq1]
          exact freeSlot_none hfree q.2 (Nat.zero_le _) (by rw [Nat.zero_add]; exact hq2)
      apply returns_bind_ok (readFatEntry_shows hg hv hl₂.head_valid.2)
      by_cases hstop : END_MARK ≤ img.next a
      · have hlast : rest = [] := by
          cases rest with
          | nil => rfl
          | cons b m =>
            have hvb := (hl₂.tail (cons_ne_nil b m)).head_valid
            exact absurd hstop (hg.not_stop _ hvb)
        rw [if_pos hstop]
        refine ⟨rfl, fun p => not_firstVacant hg hl ?_⟩
        rwa [hsplit, hlast]
      · rw [if_neg hstop]
        have hne : rest ≠ [] := by
          rintro rfl
          exact hstop (IsChain.stop_of_last (l := []) hl₂)
        have hrest := hl₂.tail hne
        refine ⟨⟨⟨l₁ ++ [a], rest, by rw [hsplit, append_assoc]; rfl, hrest, hpassed'⟩, rfl⟩, ?_⟩
        -- the next cluster stands one place further in the chain
        obtain ⟨m, rfl⟩ := hrest.eq_cons
        rw [hsplit, nodup_append] at hnodup
        obtain ⟨-, hnodup₂, hapart⟩ := hnodup
        have hna : a ∉ l₁ := fun h => hapart a h a mem_cons_self rfl
        have hnb : img.next a ∉ l₁ := fun h =>
          hapart _ h _ (mem_cons_of_mem _ mem_cons_self) rfl
        have hab : a ≠ img.next a := fun h =>
          (nodup_cons.mp hnodup₂).1 (h ▸ mem_cons_self)
        rw [hsplit, idxOf_append_of_notMem hna, idxOf_append_of_notMem hnb,
          idxOf_cons_self, idxOf_cons_ne _ hab, idxOf_cons_self]
        simp only [length_append, length_cons]
        omega
  · exact ⟨⟨[], l, rfl, hl, fun q hq => absurd hq not_mem_nil⟩, rfl⟩
  · exact lt_of_le_of_lt (Nat.sub_le _ _) (chain_length_lt hg hl)

/-! ## Changes of free clusters -/

/-- Only free clusters differ. -/
def Spares (img img' : Image) : Prop :=
  ∀ x, img.next x ≠ 0 → img'.fat x = img.fat x ∧ img'.data x = img.data x

namespace Spares

theorem refl (img : Image) : Spares img img := fun _ _ => ⟨rfl, rfl⟩

theorem mark {new : Nat} (hfree : img.next new = 0) : Spares img (img.mark new) := by
  intro x hx
  refine ⟨img.setEntry_ne ?_, rfl⟩
  rintro rfl
  exact hx hfree

section

variable (h : Spares img img')
include h

theorem next_eq {x : Nat} (hx : img.next x ≠ 0) : img'.next x = img.next x := by
  rw [Image.next, Image.next, (h x hx).1]

theorem chain (hm : img.Chain vol c m) : img'.Chain vol c m :=
  hm.congr fun _ hx => h.next_eq (chain_next_ne_zero hm hx)

theorem chain_slot (hm : img.Chain vol c m) (hp : p ∈ vol.dirSlots m) :
    img'.slot p = img.slot p := by
  rw [Image.slot, Image.slot, (h _ (chain_next_ne_zero hm (mem_dirSlots.mp hp).1)).2]

/-- The first vacant slot of a directory stays the same. -/
theorem firstVacant_iff (hg : Geometry vol) (hm : img.Chain vol c m) :
    FirstVacant vol img' c p ↔ FirstVacant vol img c p := by
  have hm' := h.chain hm
  constructor
  · rintro ⟨l, pre, post, hl, hslots, hpre, hp⟩
    obtain rfl := hl.unique hg.not_stop hm'
    refine ⟨l, pre, post, hm, hslots, ?_, ?_⟩
    · intro q hq
      rw [← h.chain_slot hm (hslots ▸ mem_append_left _ hq)]
      exact hpre q hq
    · rw [← h.chain_slot hm (mem_iff_append.mpr ⟨_, _, hslots⟩)]
      exact hp
  · rintro ⟨l, pre, post, hl, hslots, hpre, hp⟩
    obtain rfl := hl.unique hg.not_stop hm
    refine ⟨l, pre, post, hm', hslots, ?_, ?_⟩
    · intro q hq
      rw [h.chain_slot hm (hslots ▸ mem_append_left _ hq)]
      exact hpre q hq
    · rw [h.chain_slot hm (mem_iff_append.mpr ⟨_, _, hslots⟩)]
      exact hp

end

variable (ht : TreeOk vol img) (h : Spares img img')
include ht h

theorem dir_next (hc : DirCluster vol img c) : img'.next c = img.next c := by
  obtain ⟨l, hl⟩ := ht c hc
  exact h.next_eq (chain_next_ne_zero hl hl.head_mem)

theorem dir_slot (hp : DirCluster vol img p.1) : img'.slot p = img.slot p := by
  obtain ⟨l, hl⟩ := ht p.1 hp
  rw [Image.slot, Image.slot, (h _ (chain_next_ne_zero hl hl.head_mem)).2]

theorem dirsAgree : DirsAgree vol img img' :=
  ⟨fun _ hc => h.dir_next ht hc, fun _ hq _ => .inl (h.dir_slot ht hq)⟩

theorem treeOk : TreeOk vol img' :=
  (h.dirsAgree ht).treeOk ht

theorem dirCluster_iff : DirCluster vol img' c ↔ DirCluster vol img c :=
  (h.dirsAgree ht).dirCluster_iff

end Spares

/-- The root directory of the volume with the directory `D` has a vacant slot behind its entries. -/
theorem second_firstVacant : FirstVacant tinyVol secondImage 2 (2, 3) :=
  ⟨[2], [(2, 0), (2, 1), (2, 2)], (range' 4 12).map fun i => (2, i), second_chain (by decide),
    by decide, by decide +kernel, by decide +kernel⟩

end PlanckOS.Fat32
