import PlanckOS.Fat32.Opening

/-!
# Changes of the tree

`f_unlink`, `f_rename` and `f_mkdir` drop, move and add entries, and with the entry of a directory
everything below it. `Carried` compares the images before and after such a change: every entry of
the new tree, except the one in slot `p`, has an origin in the old tree, with the same start
cluster, and the table still leads along the origin's chain. From this the new tree is well formed
apart from `p` (`Carried.wellFormedBut`).

`unlinkAt_ok`, `moveEntry_sat` and `mkdirAt_returns` give the images after the three operations as
`Unlinked`, `Moved` and `MadeDir`, and each of them is such a change. A new directory has this in
common with a new file that one entry is added (`Added`).
-/

set_option autoImplicit false

namespace PlanckOS.Fat32

open Lib.Fallible FatVolume List

variable {vol : FatVolume} {img img' : Image} {p q : Slot} {c x new k : Nat} {l : List Nat}
  {d : Disk} {name : Bytes}

/-! ## Entries with an origin -/

/-- The slot is in a directory of `img` and holds an entry of `img'`, other than the one in `p`. The
root survives in any case. -/
def Owner.Survives (vol : FatVolume) (img img' : Image) (p : Slot) : Owner → Prop
  | none => True
  | some q => q ≠ p ∧ DirCluster vol img q.1 ∧ q.2 < vol.slotsPerCluster ∧
      LiveEntry (img'.slot q) ∧ ¬ IsDot (img'.slot q)

/-- Every surviving entry comes from the entry of `img` in the slot `origin` gives. The entry in `p`
may be a directory of its own, with clusters `fresh` and without entries. -/
structure Carried (vol : FatVolume) (img img' : Image) (p : Slot) (fresh : Nat → Prop)
    (origin : Slot → Slot) : Prop where
  live : ∀ q, Owner.Survives vol img img' p (some q) → Owner.Live vol img (some (origin q))
  start : ∀ q, Owner.Survives vol img img' p (some q) →
    startOf (img'.slot q) = startOf (img.slot (origin q))
  isDir : ∀ q, Owner.Survives vol img img' p (some q) → IsDirEntry (img'.slot q) →
    IsDirEntry (img.slot (origin q))
  inj : ∀ q q', Owner.Survives vol img img' p (some q) → Owner.Survives vol img img' p (some q') →
    origin q = origin q' → q = q'
  table : ∀ o : Owner, o.Survives vol img img' p → ∀ x, Owner.Holds vol img (o.map origin) x →
    img'.next x = img.next x
  entry : DirCluster vol img p.1 → Subdirectory (img'.slot p) → fresh (startOf (img'.slot p))
  last : ∀ x, fresh x → END_MARK ≤ img'.next x
  empty : ∀ x, fresh x → ∀ i < vol.slotsPerCluster, LiveEntry (img'.slot (x, i)) →
    IsDot (img'.slot (x, i))

section Carry

variable {fresh : Nat → Prop} {origin : Slot → Slot}

/-- The chain of an owner goes on inside the chain. -/
theorem Owner.Holds.next (hg : Geometry vol) {o : Owner} (h : o.Holds vol img c)
    (hv : vol.Valid (img.next c)) : o.Holds vol img (img.next c) := by
  obtain ⟨l, hl, hc⟩ := h
  exact ⟨l, hl, (hl.next_cases hc).resolve_right (hg.not_stop _ hv)⟩

namespace Carried

variable {o : Owner}

section

variable (h : Carried vol img img' p fresh origin)
include h

theorem live_owner (ho : o.Survives vol img img' p) : Owner.Live vol img (o.map origin) := by
  cases o with
  | none => exact trivial
  | some q => exact h.live q ho

theorem start_owner (ho : o.Survives vol img img' p) :
    o.start vol img' = Owner.start vol img (o.map origin) := by
  cases o with
  | none => rfl
  | some q => exact h.start q ho

theorem inj_owner {o o' : Owner} (ho : o.Survives vol img img' p) (ho' : o'.Survives vol img img' p)
    (heq : o.map origin = o'.map origin) : o = o' := by
  cases o with
  | none =>
    cases o' with
    | none => rfl
    | some q' => cases heq
  | some q =>
    cases o' with
    | none => cases heq
    | some q' => exact congrArg some (h.inj q q' ho ho' (Option.some.inj heq))

/-- A surviving subdirectory was one before. -/
theorem subdirectory (hq : Owner.Survives vol img img' p (some q))
    (hsub : Subdirectory (img'.slot q)) :
    Subdirectory (img.slot (origin q)) :=
  ⟨(h.live q hq).2.2.1, h.isDir q hq hsub.2.1, (h.live q hq).2.2.2⟩

end

variable (hg : Geometry vol) (hw : WellFormed vol img) (h : Carried vol img img' p fresh origin)
include hg hw h

/-- **The directories of the new tree** are new or belong to a surviving directory. -/
theorem dirCluster (hc : DirCluster vol img' c) : fresh c ∨ (DirCluster vol img c ∧
    ∃ o : Owner, o.Survives vol img img' p ∧ Owner.Holds vol img (o.map origin) c) := by
  induction hc with
  | root =>
    exact .inr ⟨.root, none, trivial, hw.holds_start (o := none) trivial hg.root_valid⟩
  | @next c _ hv ih =>
    rcases ih with hnew | ⟨hc, o, ho, hx⟩
    · exact absurd (h.last c hnew) (hg.not_stop _ hv)
    · rw [h.table o ho c hx] at hv ⊢
      exact .inr ⟨.next hc hv, o, ho, hx.next hg hv⟩
  | @child q _ hi he hv ih =>
    rcases ih with hnew | ⟨hc, -⟩
    · exact absurd (h.empty _ hnew q.2 hi he.1) he.2.2
    by_cases hqp : q = p
    · subst hqp
      exact .inl (h.entry hc he)
    have hq : Owner.Survives vol img img' p (some q) := ⟨hqp, hc, hi, he.1, he.2.2⟩
    have hlive := h.live q hq
    rw [h.start q hq] at hv ⊢
    exact .inr ⟨.child hlive.1 hlive.2.1 (h.subdirectory hq he) hv, some q, hq,
      hw.holds_start hlive hv⟩

/-- The entries of the new tree, apart from `p`, are the surviving ones. -/
theorem survives_of_live (ho : o.Live vol img') (hne : o ≠ some p) : o.Survives vol img img' p := by
  cases o with
  | none => trivial
  | some q =>
    have hqp : q ≠ p := fun hq => hne (hq ▸ rfl)
    rcases h.dirCluster hg hw ho.1 with hnew | ⟨hc, -⟩
    · exact absurd (h.empty _ hnew q.2 ho.2.1 ho.2.2.1) ho.2.2.2
    · exact ⟨hqp, hc, ho.2.1, ho.2.2.1, ho.2.2.2⟩

omit hg hw in
/-- The chain of a surviving owner is that of its origin. -/
theorem chain_of_origin (ho : o.Survives vol img img' p)
    (hl : img.Chain vol (Owner.start vol img (o.map origin)) l) :
    img'.Chain vol (o.start vol img') l := by
  rw [h.start_owner ho]
  exact hl.congr fun x hx => h.table o ho x ⟨l, hl, hx⟩

theorem holds_origin (ho : o.Survives vol img img' p) (hx : o.Holds vol img' x) :
    Owner.Holds vol img (o.map origin) x := by
  obtain ⟨m, hm, hmem⟩ := hx
  rcases hw.heads _ (h.live_owner ho) with h0 | ⟨l, hl⟩
  · have := hm.head_valid.1
    rw [h.start_owner ho] at this
    omega
  · have hl' := h.chain_of_origin ho hl
    exact ⟨l, hl, hm.unique hg.not_stop hl' ▸ hmem⟩

/-- A cluster that another entry of the new tree holds was allocated before. -/
theorem next_ne_zero (hx : Protected vol img' p x) : img.next x ≠ 0 := by
  obtain ⟨o, ho, hne, hx⟩ := hx
  obtain ⟨l, hl, hmem⟩ := h.holds_origin hg hw (h.survives_of_live hg hw ho hne) hx
  exact chain_next_ne_zero hl hmem

/-- **The new tree without `p` is well formed.** -/
theorem wellFormedBut (hfirst : END_MARK ≤ img'.next 0) (hsecond : END_MARK ≤ img'.next 1) :
    WellFormedBut vol img' p where
  heads := by
    intro o ho hne
    have hs := h.survives_of_live hg hw ho hne
    rcases hw.heads _ (h.live_owner hs) with h0 | ⟨l, hl⟩
    · exact .inl ((h.start_owner hs).trans h0)
    · exact .inr ⟨l, h.chain_of_origin hs hl⟩
  disjoint := by
    intro o o' ho ho' hne hne' hoo x hx hx'
    have hs := h.survives_of_live hg hw ho hne
    have hs' := h.survives_of_live hg hw ho' hne'
    refine hw.disjoint _ _ (h.live_owner hs) (h.live_owner hs') ?_ x (h.holds_origin hg hw hs hx)
      (h.holds_origin hg hw hs' hx')
    exact fun heq => hoo (h.inj_owner hs hs' heq)
  first := hfirst
  second := hsecond

end Carried

/-- Cluster 0 belongs to no directory. -/
theorem TreeOk.not_zero (ht : TreeOk vol img) : ¬ DirCluster vol img 0 := by
  intro h0
  obtain ⟨l, hl⟩ := ht 0 h0
  have := hl.head_valid.1
  omega

/-- Entries that stay in their slots. -/
theorem Carried.of_slots (hslots : ∀ q, q ≠ p → DirCluster vol img q.1 → q.2 < vol.slotsPerCluster →
      img'.slot q = img.slot q)
    (htable : ∀ o : Owner, o ≠ some p → o.Live vol img → ∀ x, o.Holds vol img x →
      img'.next x = img.next x)
    (hentry : DirCluster vol img p.1 → Subdirectory (img'.slot p) → fresh (startOf (img'.slot p)))
    (hlast : ∀ x, fresh x → END_MARK ≤ img'.next x)
    (hempty : ∀ x, fresh x → ∀ i < vol.slotsPerCluster, LiveEntry (img'.slot (x, i)) →
      IsDot (img'.slot (x, i))) : Carried vol img img' p fresh id := by
  have hslot : ∀ q, Owner.Survives vol img img' p (some q) → img'.slot q = img.slot q :=
    fun q hq => hslots q hq.1 hq.2.1 hq.2.2.1
  have hlive : ∀ q, Owner.Survives vol img img' p (some q) → Owner.Live vol img (some q) :=
    fun q hq => ⟨hq.2.1, hq.2.2.1, hslot q hq ▸ hq.2.2.2⟩
  refine ⟨hlive, fun q hq => congrArg startOf (hslot q hq), fun q hq hd => hslot q hq ▸ hd,
    fun _ _ _ _ heq => heq, fun o ho x hx => ?_, hentry, hlast, hempty⟩
  rw [Option.map_id_fun, id] at hx
  cases o with
  | none => exact htable none (Option.some_ne_none p).symm trivial x hx
  | some q => exact htable (some q) (fun heq => ho.1 (Option.some.inj heq)) (hlive q ho) x hx

/-- All entries survive changes of free clusters. The excluded slot is one that no directory has. -/
theorem Spares.carried (ht : TreeOk vol img) (h : Spares img img') :
    Carried vol img img' (0, 0) (fun _ => False) id :=
  .of_slots (fun _ _ hq _ => h.dir_slot ht hq)
    (fun _ _ _ _ ⟨_, hl, hx⟩ => h.next_eq (chain_next_ne_zero hl hx))
    (fun h0 => absurd h0 ht.not_zero) (fun _ hx => hx.elim) fun _ hx => hx.elim

/-- **Changes of free clusters keep the tree well formed.** -/
theorem Spares.wellFormed (hg : Geometry vol) (hw : WellFormed vol img) (h : Spares img img') :
    WellFormed vol img' := by
  have htree := hw.treeOk hg
  have hc := h.carried htree
  have hends : ∀ x, END_MARK ≤ img.next x → END_MARK ≤ img'.next x := by
    intro x hx
    rwa [h.next_eq (by rw [END_MARK] at hx; omega)]
  refine (hc.wellFormedBut hg hw (hends 0 hw.first) (hends 1 hw.second)).complete hg ?_
  intro hlive
  exact ((hc.dirCluster hg hw hlive.1).elim id fun h => htree.not_zero h.1).elim

end Carry

/-! ## New entries -/

/-- Slot `q` got an entry whose only cluster is `new`; a directory there has no entries yet. -/
structure Added (vol : FatVolume) (img : Image) (new : Nat) (q : Slot) (img' : Image) : Prop where
  valid : vol.Valid new
  fresh : img.next new = 0
  fat : img'.fat = (img.mark new).fat
  slots : ∀ r, r.1 ≠ new → r ≠ q → r.2 < vol.slotsPerCluster → img'.slot r = img.slot r
  start : startOf (img'.slot q) = new
  empty : Subdirectory (img'.slot q) → ∀ i < vol.slotsPerCluster, LiveEntry (img'.slot (new, i)) →
    IsDot (img'.slot (new, i))

namespace Added

theorem dir_slot (ht : TreeOk vol img) (h : Added vol img new q img') {r : Slot} (hr : r ≠ q)
    (hd : DirCluster vol img r.1) (hi : r.2 < vol.slotsPerCluster) : img'.slot r = img.slot r := by
  obtain ⟨l, hl⟩ := ht r.1 hd
  refine h.slots r ?_ hr hi
  intro heq
  exact chain_next_ne_zero hl hl.head_mem (heq ▸ h.fresh)

theorem next_eq (h : Added vol img new q img') (hx : x ≠ new) : img'.next x = img.next x := by
  rw [Image.next, Image.next, h.fat, Image.mark, Image.setEntry_ne _ hx]

theorem next_new (h : Added vol img new q img') : END_MARK ≤ img'.next new := by
  rw [Image.next, h.fat]
  exact img.mark_next_self new

/-- **All entries survive a new one.** -/
theorem carried (ht : TreeOk vol img) (h : Added vol img new q img') :
    Carried vol img img' q (fun x => x = new ∧ Subdirectory (img'.slot q)) id := by
  refine .of_slots (fun r hr hd hi => h.dir_slot ht hr hd hi) ?_ ?_ ?_ ?_
  · rintro o - - x ⟨l, hl, hx⟩
    apply h.next_eq
    rintro rfl
    exact chain_next_ne_zero hl hx h.fresh
  · exact fun _ hsub => ⟨h.start, hsub⟩
  · rintro x ⟨rfl, -⟩
    exact h.next_new
  · rintro x ⟨rfl, hsub⟩ i hi hlive
    exact h.empty hsub i hi hlive

theorem wellFormed (hg : Geometry vol) (hw : WellFormed vol img) (h : Added vol img new q img') :
    WellFormed vol img' := by
  have hc := h.carried (hw.treeOk hg)
  have hends : ∀ x, END_MARK ≤ img.next x → END_MARK ≤ img'.next x := by
    intro x hx
    by_cases hxn : x = new
    · exact hxn ▸ h.next_new
    · rwa [h.next_eq hxn]
  refine (hc.wellFormedBut hg hw (hends 0 hw.first) (hends 1 hw.second)).complete hg ?_
  intro _
  rw [h.start]
  refine .inr ⟨[new], .last h.valid h.next_new, ?_⟩
  intro x hx hp
  exact hc.next_ne_zero hg hw hp (mem_singleton.mp hx ▸ h.fresh)

end Added

/-- Creating a file adds an entry. -/
theorem Created.added (h : Created vol img new q img') : Added vol img new q img' where
  valid := h.valid
  fresh := h.fresh
  fat := h.written.fat
  slots r _ hr hi := h.written.slots r hr hi
  start := h.start
  empty hsub := absurd hsub.2.1 h.regular

/-! ## `f_unlink` -/

/-- The entry as deleted. -/
def deletedEntry (e : Entry) : Entry := Buf.set e 0 0xE5

theorem deletedEntry_not_live (e : Entry) : ¬ LiveEntry (deletedEntry e) := fun h => h.2.2 rfl

/-- The entry in `p` is deleted, and its chain is free. -/
structure Unlinked (vol : FatVolume) (img : Image) (p : Slot) (img' : Image) : Prop where
  entry : img'.slot p = deletedEntry (img.slot p)
  data : ∀ c, c ≠ p.1 → img'.data c = img.data c
  slots : ∀ q, q ≠ p → q.2 < vol.slotsPerCluster → img'.slot q = img.slot q
  table : ∀ x, ¬ Owner.Holds vol img (some p) x → img'.fat x = img.fat x
  freed : ∀ x, Owner.Holds vol img (some p) x → img'.next x = 0
  high : ∀ x, img'.fat x / 2 ^ 28 = img.fat x / 2 ^ 28

/-- Marking a slot as deleted. -/
theorem deletedEntry_edit (i : Nat) :
    SlotEdit i (fun buf => buf.set (i * DIR_SIZE) 0xE5) deletedEntry :=
  slotEdit_set i (a := 0) (by decide) 0xE5

/-- **`f_unlink` behind its lookup** succeeds on an entry that has no cluster or a chain. -/
theorem unlinkAt_ok (hg : Geometry vol) (hs : Shows vol d img) (hp : vol.Valid p.1)
    (hi : p.2 < vol.slotsPerCluster)
    (hheads : startOf (img.slot p) = 0 ∨ ∃ l, img.Chain vol (startOf (img.slot p)) l) :
    ∃ d' img', unlinkAt vol p.1 p.2 d = .ok () d' ∧ Shows vol d' img' ∧
      Unlinked vol img p img' := by
  obtain ⟨d₁, img₁, hrun₁, hs₁, hwritten, hentry⟩ := (deletedEntry_edit p.2).write hg hs hp hi
  -- the chain to release is that of the entry
  have hchain : ∀ {m}, img₁.Chain vol (startOf (img.slot p)) m ↔
      img.Chain vol (startOf (img.slot p)) m := by
    intro m
    rw [Image.Chain, Image.Chain, hwritten.next_eq]
  obtain ⟨d', img', l, hrun, hs', hrel, hmem⟩ :=
    releaseChain_start hg hs₁ (hheads.imp_right fun ⟨l, hl⟩ => ⟨l, hchain.mpr hl⟩)
  simp only [hchain] at hmem
  have hslot : ∀ q, img'.slot q = img₁.slot q := by
    intro q
    rw [Image.slot, Image.slot, hrel.data]
  refine ⟨d', img', ?_, hs', ?_⟩
  · rw [unlinkAt, Op.bind_ok (readCluster_shows hg hs.view_eq hp)]
    exact (Op.bind_ok hrun₁).trans hrun
  constructor
  · rw [hslot, hentry]
  · intro c hc
    rw [hrel.data, hwritten.data c hc]
  · intro q hq hi
    rw [hslot, hwritten.slots q hq hi]
  · intro x hx
    rw [hrel.fat x fun h => hx ((hmem x).mp h), hwritten.fat]
  · exact fun x hx => hrel.free x ((hmem x).mpr hx)
  · intro x
    rw [hrel.high, hwritten.fat]

/-- **The other entries survive an unlink.** -/
theorem Unlinked.carried (hw : WellFormed vol img) (hp : Owner.Live vol img (some p))
    (h : Unlinked vol img p img') : Carried vol img img' p (fun _ => False) id := by
  refine .of_slots (fun q hq _ hi => h.slots q hq hi) ?_ ?_ (fun _ hx => hx.elim)
    fun _ hx => hx.elim
  · intro o hne ho x hx
    rw [Image.next, Image.next, h.table x (hw.disjoint o _ ho hp hne x hx)]
  · intro _ hsub
    rw [h.entry] at hsub
    exact absurd hsub.1 (deletedEntry_not_live _)

theorem Unlinked.wellFormed (hg : Geometry vol) (hw : WellFormed vol img)
    (hp : Owner.Live vol img (some p)) (h : Unlinked vol img p img') : WellFormed vol img' := by
  have hreserved : ∀ x < 2, img'.next x = img.next x := by
    intro x hx
    rw [Image.next, Image.next, h.table]
    rintro ⟨l, hl, hmem⟩
    have := (hl.valid_of_mem hmem).1
    omega
  refine ((h.carried hw hp).wellFormedBut hg hw ((hreserved 0 (by decide)).symm ▸ hw.first)
    ((hreserved 1 (by decide)).symm ▸ hw.second)).complete hg ?_
  rintro ⟨-, -, hlive, -⟩
  rw [h.entry] at hlive
  exact absurd hlive (deletedEntry_not_live _)

/-! ## `f_rename` -/

/-- The entry that `f_rename` writes over the bytes `e` of a vacant slot: the new name, and the rest
of the entry `source`. -/
def movedEntry (e source : Entry) (name : Bytes) : Entry :=
  (Buf.store e 0 (encodeName name)).store 0x0B ((range 21).map fun k => source (0x0B + k))

theorem movedEntry_of_ge (e source : Entry) (name : Bytes) (hk : 0x0B ≤ k)
    (hk' : k < 32) : movedEntry e source name k = source k := by
  have hlen : ((range 21).map fun k => source (0x0B + k)).length = 21 := by
    rw [length_map, length_range]
  rw [movedEntry, Buf.store, if_pos (by omega), getD_eq_getElem _ _ (by omega),
    getElem_map, getElem_range]
  congr 1
  omega

/-- The entry in `p` moved to `q` and has the name `name` there. -/
structure Moved (vol : FatVolume) (img : Image) (p q : Slot) (name : Bytes) (img' : Image) :
    Prop where
  fat : img'.fat = img.fat
  data : ∀ c, c ≠ p.1 → c ≠ q.1 → img'.data c = img.data c
  source : img'.slot p = deletedEntry (img.slot p)
  target : img'.slot q = movedEntry (img.slot q) (img.slot p) name
  slots : ∀ r, r ≠ p → r ≠ q → r.2 < vol.slotsPerCluster → img'.slot r = img.slot r

theorem startOf_congr {e e' : Entry} (h : ∀ k, 0x14 ≤ k → k < 0x1C → e' k = e k) :
    startOf e' = startOf e := by
  have hlow : e'.le16 0x1A = e.le16 0x1A := le16_congr fun i hi => h _ (by omega) (by omega)
  have hhigh : e'.le16 0x14 = e.le16 0x14 := le16_congr fun i hi => h _ (by omega) (by omega)
  rw [startOf, startOf, hlow, hhigh]

theorem movedEntry_start (e source : Entry) (name : Bytes) :
    startOf (movedEntry e source name) = startOf source :=
  startOf_congr fun _ h1 h2 => movedEntry_of_ge e source name (by omega) (by omega)

theorem movedEntry_attr (e source : Entry) (name : Bytes) :
    attrOf (movedEntry e source name) = attrOf source := by
  rw [attrOf, attrOf, movedEntry_of_ge e source name (by decide) (by decide)]

/-- The edit of the slot that `f_rename` writes. -/
theorem movedEntry_edit (i : Nat) (source : Entry) (name : Bytes) :
    SlotEdit i (fun buf => (buf.store (i * DIR_SIZE) (encodeName name)).store (i * DIR_SIZE + 0x0B)
      ((range 21).map fun k => source (0x0B + k))) (movedEntry · source name) := by
  have hname : 0 + (encodeName name).length ≤ 32 := by
    rw [encodeName_length]
    decide
  have hrest : 0x0B + ((range 21).map fun k => source (0x0B + k)).length ≤ 32 := by
    rw [length_map, length_range]
  exact (slotEdit_store i hname).comp (slotEdit_store i hrest)

/-- **`f_rename` behind its lookups** moves the entry to the first vacant slot of the new parent. -/
theorem moveEntry_sat (hg : Geometry vol) (hs : Shows vol d img) (ht : TreeOk vol img)
    (hc : DirCluster vol img c) (hp : DirCluster vol img p.1) (hi : p.2 < vol.slotsPerCluster)
    (hlive : LiveEntry (img.slot p)) (name : Bytes) :
    (moveEntry vol p.1 p.2 c (img.slot p) name d).Sat
      (fun _ d' => ∃ q img', Shows vol d' img' ∧ FirstVacant vol img c q ∧
        Moved vol img p q name img') fun _ d' => d' = d := by
  obtain ⟨l', hl'⟩ := ht c hc
  rw [moveEntry]
  apply sat_bind
  refine (findSlot_chain hg hs.view_eq hl').sat.mono ?_ fun _ _ h => h.1
  rintro ⟨dest, idx, buf⟩ d₁ ⟨rfl, hvacant, hbuf⟩
  simp only at hvacant hbuf
  subst hbuf
  obtain ⟨l, hl⟩ := ht dest (hvacant.place hc)
  obtain ⟨m, hm⟩ := ht p.1 hp
  have hpq : p ≠ (dest, idx) := by
    rintro rfl
    exact hvacant.vacant.not_live hlive
  obtain ⟨d₂, img₂, hrun₂, hs₂, hwritten, htarget⟩ :=
    (movedEntry_edit idx (img.slot p) name).write hg hs (p := (dest, idx)) hl.head_valid
      hvacant.index
  obtain ⟨d₃, img₃, hrun₃, hs₃, hwritten₃, hentry₃⟩ :=
    (deletedEntry_edit p.2).write hg hs₂ hm.head_valid hi
  apply sat_bind_ok hrun₂
  apply sat_bind_ok (readCluster_shows hg hs₂.view_eq hm.head_valid)
  apply sat_of_ok hrun₃
  refine ⟨(dest, idx), img₃, hs₃, hvacant, ?_⟩
  constructor
  · rw [hwritten₃.fat, hwritten.fat]
  · intro x hx hx'
    rw [hwritten₃.data x hx, hwritten.data x hx']
  · rw [hentry₃, hwritten.slots p hpq hi]
  · rw [hwritten₃.slots _ hpq.symm hvacant.index]
    exact htarget
  · intro r hr hr' hri
    rw [hwritten₃.slots r hr hri, hwritten.slots r hr' hri]

/-- **All entries survive a rename.** -/
theorem Moved.carried (hp : Owner.Live vol img (some p)) (h : Moved vol img p q name img') :
    Carried vol img img' p (fun _ => False) fun r => if r = q then p else r := by
  constructor
  · rintro r ⟨hrp, hr, hi, hlive, hdot⟩
    by_cases hrq : r = q
    · rw [if_pos hrq]
      exact hp
    · rw [if_neg hrq]
      rw [h.slots r hrp hrq hi] at hlive hdot
      exact ⟨hr, hi, hlive, hdot⟩
  · rintro r ⟨hrp, -, hi, -⟩
    by_cases hrq : r = q
    · rw [if_pos hrq, hrq, h.target]
      exact movedEntry_start _ _ _
    · rw [if_neg hrq, h.slots r hrp hrq hi]
  · rintro r ⟨hrp, -, hi, -⟩ hd
    by_cases hrq : r = q
    · rw [if_pos hrq]
      rwa [hrq, h.target, IsDirEntry, movedEntry_attr] at hd
    · rw [if_neg hrq]
      rwa [h.slots r hrp hrq hi] at hd
  · rintro r r' hr hr' heq
    by_cases hrq : r = q
    · by_cases hrq' : r' = q
      · exact hrq.trans hrq'.symm
      · rw [if_pos hrq, if_neg hrq'] at heq
        exact absurd heq.symm hr'.1
    · by_cases hrq' : r' = q
      · rw [if_neg hrq, if_pos hrq'] at heq
        exact absurd heq hr.1
      · rwa [if_neg hrq, if_neg hrq'] at heq
  · intro o _ x _
    rw [Image.next, Image.next, h.fat]
  · intro _ hsub
    rw [h.source] at hsub
    exact absurd hsub.1 (deletedEntry_not_live _)
  · exact fun _ hx => hx.elim
  · exact fun _ hx => hx.elim

theorem Moved.wellFormed (hg : Geometry vol) (hw : WellFormed vol img)
    (hp : Owner.Live vol img (some p)) (h : Moved vol img p q name img') : WellFormed vol img' := by
  have hnext : ∀ x, img'.next x = img.next x := by
    intro x
    rw [Image.next, Image.next, h.fat]
  refine ((h.carried hp).wellFormedBut hg hw ((hnext 0).symm ▸ hw.first)
    ((hnext 1).symm ▸ hw.second)).complete hg ?_
  rintro ⟨-, -, hlive, -⟩
  rw [h.source] at hlive
  exact absurd hlive (deletedEntry_not_live _)

/-! ## `f_mkdir` -/

/-- The entry that `f_mkdir` writes over the bytes `e` of a vacant slot. -/
def newDirEntry (e : Entry) (name : Bytes) (new : Nat) : Entry :=
  storeStart ((storeDirName e 0 name).set 0x0B 0x10) 0 new

/-- Slot `q` became a directory whose only cluster is `new`. -/
structure MadeDir (vol : FatVolume) (img : Image) (new parent : Nat) (q : Slot) (name : Bytes)
    (img' : Image) : Prop where
  valid : vol.Valid new
  fresh : img.next new = 0
  place : DirCluster vol img q.1
  index : q.2 < vol.slotsPerCluster
  dead : ¬ LiveEntry (img.slot q)
  fat : img'.fat = (img.mark new).fat
  data : ∀ c, c ≠ new → c ≠ q.1 → img'.data c = img.data c
  entry : img'.slot q = newDirEntry (img.slot q) name new
  content : ∀ i < vol.slotsPerCluster, img'.slot (new, i) = entryAt (freshDirectory new parent) i
  slots : ∀ r, r.1 ≠ new → r ≠ q → r.2 < vol.slotsPerCluster → img'.slot r = img.slot r

section Mkdir

variable {parent : Nat}

theorem baseName_length_le (name : Bytes) : ((name.take 8).takeWhile (· != 0x2E)).length ≤ 8 := by
  have h := ( takeWhile_prefix (· != (0x2E : UInt8)) (l := name.take 8)).length_le
  rw [length_take] at h
  omega

/-- The edit of the slot that `f_mkdir` writes. -/
theorem newDirEntry_edit (i new : Nat) (name : Bytes) :
    SlotEdit i (fun buf => storeStart ((storeDirName buf (i * DIR_SIZE) name).set
      (i * DIR_SIZE + 0x0B) 0x10) (i * DIR_SIZE) new) (newDirEntry · name new) := by
  suffices h : SlotEdit i (storeDirName · (i * DIR_SIZE) name) (storeDirName · 0 name) from
    (h.comp (slotEdit_set i (by decide) 0x10)).comp (slotEdit_storeStart i new)
  have hlen := baseName_length_le name
  generalize hbase : (name.take 8).takeWhile (· != 0x2E) = base at hlen
  have hpad : base.length + (replicate (8 - base.length) (0x20 : UInt8)).length ≤ 32 := by
    rw [length_replicate]
    omega
  have hclear : 8 + (replicate 3 (0x20 : UInt8)).length ≤ 32 := by decide
  -- the steps of the source, one by one
  have hfirst : SlotEdit i (fun buf => buf.store (i * DIR_SIZE) base) fun e => Buf.store e 0 base :=
    slotEdit_store i (by omega : 0 + base.length ≤ 32)
  have hsecond : SlotEdit i (fun buf => if 8 < name.length then
        (buf.store (i * DIR_SIZE) base).store (i * DIR_SIZE + 8) (replicate 3 0x20)
        else buf.store (i * DIR_SIZE) base)
      (fun e => if 8 < name.length then
        (Buf.store e 0 base).store 8 (replicate 3 0x20) else Buf.store e 0 base) := by
    by_cases h8 : 8 < name.length
    · simp only [if_pos h8]
      exact hfirst.comp (slotEdit_store i hclear)
    · simp only [if_neg h8]
      exact hfirst
  have hthird := hsecond.comp (slotEdit_store i hpad)
  simp only [storeDirName, hbase, Nat.zero_add]
  cases hdot : name.findIdx? (· == 0x2E) with
  | none => exact hthird
  | some dot =>
    refine hthird.comp (slotEdit_store i ?_)
    rw [length_append, length_replicate, length_take]
    omega

section

variable (e : Entry) (name : Bytes)

theorem newDirEntry_of_lt (new : Nat) (hk : k < 0x0B) :
    newDirEntry e name new k = storeDirName e 0 name k := by
  rw [newDirEntry, storeStart_apply (by omega), Buf.set, if_neg (by omega)]

theorem newDirEntry_attr (new : Nat) : attrOf (newDirEntry e name new) = 0x10 := by
  rw [attrOf, newDirEntry, storeStart_apply (by decide), Buf.set, if_pos rfl]
  rfl

theorem newDirEntry_start (h : new < 2 ^ 32) :
    startOf (newDirEntry e name new) = new := startOf_storeStart _ h

/-- The first eight bytes of the name. -/
theorem storeDirName_base (hk : k < 8) :
    storeDirName e 0 name k = ((name.take 8).takeWhile (· != 0x2E)).getD k 0x20 := by
  have hlen := baseName_length_le name
  generalize hbase : (name.take 8).takeWhile (· != 0x2E) = base at hlen ⊢
  -- what is written from byte 8 on does not matter
  have hbehind : ∀ (buf : Buf) (bytes : Bytes), buf.store 8 bytes k = buf k := by
    intro buf bytes
    rw [Buf.store, if_neg (by omega)]
  have hpadded : ∀ buf : Buf, buf k = Buf.store e 0 base k →
      buf.store base.length (replicate (8 - base.length) 0x20) k = base.getD k 0x20 := by
    intro buf hbuf
    rw [Buf.store, length_replicate]
    by_cases hin : base.length ≤ k
    · rw [if_pos (by omega), getD_eq_getElem _ _ (by rw [length_replicate]; omega),
        getElem_replicate, getD_eq_default _ _ hin]
    · rw [if_neg (by omega), hbuf, Buf.store, if_pos (by omega), Nat.sub_zero,
        getD_eq_getElem _ _ (by omega), getD_eq_getElem _ _ (by omega)]
  have hcleared : (if 8 < name.length then (Buf.store e 0 base).store 8 (replicate 3 0x20)
      else Buf.store e 0 base) k = Buf.store e 0 base k := by
    split_ifs
    · exact hbehind _ _
    · rfl
  simp only [storeDirName, hbase, Nat.zero_add]
  cases name.findIdx? (· == 0x2E) with
  | none => exact hpadded _ hcleared
  | some dot =>
    refine (hbehind _ _).trans ?_
    exact hpadded _ hcleared

end

/-- Names and attributes in a new directory do not depend on the clusters stored there. -/
theorem freshDirectory_kind (new parent i : Nat) : ∀ k ≤ 0x0B,
    entryAt (freshDirectory new parent) i k = entryAt (freshDirectory 0 0) i k := by
  intro k hk
  have hout (off : Nat) (hoff : off % 32 = 0) :
      i * 32 + k < off + 0x14 ∨ off + 0x1C ≤ i * 32 + k := by omega
  rw [entryAt, entryAt, DIR_SIZE]
  simp only [freshDirectory, Buf.set, Buf.store, storeStart_apply (hout 0 rfl),
    storeStart_apply (hout 32 rfl)]

/-- Behind its first two slots a new directory has end markers. -/
theorem freshDirectory_marker (new parent : Nat) {i : Nat} (hi : 2 ≤ i) :
    EndMarker (entryAt (freshDirectory new parent) i) := by
  have hzero : freshDirectory new parent (i * 32) = 0 := by
    simp only [freshDirectory, storeStart, Buf.store, Buf.set, length_cons,
      length_replicate, bytes16, length_nil]
    split_ifs <;> first | omega | rfl
  exact hzero

/-- The entries of a new directory are no owners. -/
theorem freshDirectory_empty (new parent i : Nat)
    (h : LiveEntry (entryAt (freshDirectory new parent) i)) :
    IsDot (entryAt (freshDirectory new parent) i) := by
  have hi : i < 2 := Nat.not_le.mp fun hi => h.2.1 (freshDirectory_marker new parent hi)
  rw [(entry_kind_congr (freshDirectory_kind new parent i)).2.2]
  interval_cases i <;> decide

/-- Making a directory adds an entry. -/
theorem MadeDir.added (hg : Geometry vol) (h : MadeDir vol img new parent q name img') :
    Added vol img new q img' := by
  have hlt := hg.lt_end h.valid
  rw [END_MARK] at hlt
  refine ⟨h.valid, h.fresh, h.fat, h.slots, ?_, ?_⟩
  · rw [h.entry, newDirEntry_start _ _ (by omega)]
  · intro _ i hi hlive
    rw [h.content i hi] at hlive ⊢
    exact freshDirectory_empty _ _ i hlive

/-- **`f_mkdir` behind its lookup**, in any chain: an entry is added in its first vacant slot, and
in a directory of the tree it is that of a new directory. On failure at most a free cluster changed;
it fails without a free cluster, and when the chain is full. -/
theorem mkdirAt_chain (hg : Geometry vol) (hs : Shows vol d img)
    (hl : img.Chain vol c l) (name : Bytes) : (mkdirAt vol c name d).Returns
      (fun _ d' => ∃ new q img', Shows vol d' img' ∧ FirstVacant vol img c q ∧
        Added vol img new q img' ∧
        (DirCluster vol img q.1 → MadeDir vol img new c q name img'))
      (fun _ d' => (∃ img', Shows vol d' img' ∧ Spares img img') ∧
        ((∀ x, vol.Valid x → img.next x ≠ 0) ∨ ∀ p, ¬ FirstVacant vol img c p)) := by
  rw [mkdirAt]
  apply returns_bind
  rcases allocCluster_cases hg hs with ⟨new, d₁, halloc, hv, hfree, hs₁⟩ | ⟨halloc, hnone⟩
  · apply returns_of_ok halloc
    -- the new cluster was free, so that nothing in use has changed up to the slot search
    have hold : ∀ x, img.next x ≠ 0 → x ≠ new := by
      rintro x hx rfl
      exact hx hfree
    obtain ⟨d₂, hrun₂, hs₂⟩ := writeCluster_shows hg hs₁ hv (freshDirectory new c)
    have hspares : Spares img ((img.mark new).setData new (vol.clip (freshDirectory new c))) :=
      fun x hx => ⟨img.setEntry_ne (hold x hx), Image.setData_ne _ (hold x hx)⟩
    apply returns_bind_ok hrun₂
    apply returns_bind
    refine (findSlot_chain hg hs₂.view_eq (hspares.chain hl)).mono ?_ ?_
    · rintro ⟨dest, idx, buf⟩ d₃ ⟨rfl, hvacant, hbuf⟩
      simp only at hvacant hbuf
      subst hbuf
      have hfirst := (hspares.firstVacant_iff hg hl).mp hvacant
      have hmem : (dest, idx) ∈ vol.dirSlots l := hfirst.mem hg hl
      have hne : dest ≠ new := hold dest (chain_next_ne_zero hl (mem_dirSlots.mp hmem).1)
      obtain ⟨d₄, img₄, hrun₄, hs₄, hwritten, hslot⟩ :=
        (newDirEntry_edit idx new name).write hg hs₂ (p := (dest, idx)) (hfirst.valid hg hl)
          hfirst.index
      apply returns_of_ok hrun₄
      have hlt := hg.lt_end hv
      rw [END_MARK] at hlt
      have hfat : img₄.fat = (img.mark new).fat := by rw [hwritten.fat, Image.setData_fat]
      have hentry : img₄.slot (dest, idx) = newDirEntry (img.slot (dest, idx)) name new := by
        rw [hslot, hspares.chain_slot hl hmem]
      have hcontent : ∀ i < vol.slotsPerCluster,
          img₄.slot (new, i) = entryAt (freshDirectory new c) i := by
        intro i hi
        rw [hwritten.slots (new, i) (fun h => hne (congrArg Prod.fst h).symm) hi]
        exact slot_of_edit hi
      have hslots : ∀ r, r.1 ≠ new → r ≠ (dest, idx) → r.2 < vol.slotsPerCluster →
          img₄.slot r = img.slot r := by
        intro r hr hrq hi
        rw [hwritten.slots r hrq hi, Image.slot, Image.setData_ne _ hr]
        rfl
      refine ⟨new, (dest, idx), img₄, hs₄, hfirst, ?_, fun hplace => ?_⟩
      · refine ⟨hv, hfree, hfat, hslots, ?_, ?_⟩
        · rw [hentry, newDirEntry_start _ _ (by omega)]
        · intro _ i hi hlive
          rw [hcontent i hi] at hlive ⊢
          exact freshDirectory_empty _ _ i hlive
      · refine ⟨hv, hfree, hplace, hfirst.index, hfirst.vacant.not_live, hfat, ?_, hentry, hcontent,
          hslots⟩
        intro x hx hx'
        rw [hwritten.data x hx', Image.setData_ne _ hx]
        rfl
    · -- without a free slot the cluster stays allocated
      rintro e d₃ ⟨rfl, hfull⟩
      refine ⟨⟨_, hs₂, hspares⟩, .inr fun p hp => ?_⟩
      exact hfull p ((hspares.firstVacant_iff hg hl).mpr hp)
  · exact returns_of_err halloc ⟨⟨img, hs, .refl img⟩, .inl hnone⟩

/-- The same in a directory of the tree. -/
theorem mkdirAt_returns (hg : Geometry vol) (hs : Shows vol d img) (ht : TreeOk vol img)
    (hc : DirCluster vol img c) (name : Bytes) : (mkdirAt vol c name d).Returns
      (fun _ d' => ∃ new q img', Shows vol d' img' ∧ FirstVacant vol img c q ∧
        MadeDir vol img new c q name img')
      (fun _ d' => (∃ img', Shows vol d' img' ∧ Spares img img') ∧
        ((∀ x, vol.Valid x → img.next x ≠ 0) ∨ ∀ p, ¬ FirstVacant vol img c p)) := by
  obtain ⟨l, hl⟩ := ht c hc
  refine (mkdirAt_chain hg hs hl name).mono ?_ fun _ _ h => h
  rintro - d' ⟨new, q, img', hs', hfirst, -, hmade⟩
  exact ⟨new, q, img', hs', hfirst, hmade (hfirst.place hc)⟩

end Mkdir

/-! ## Along a path -/

/-- An operation on the tree. -/
inductive TreeOp where
  | mkdir (path : Bytes)
  | rename (oldPath newPath : Bytes)
  | unlink (path : Bytes)
  deriving DecidableEq, Repr

/-- The disk after an operation that returned, with a value or with an error. -/
def runTreeOp (vol : FatVolume) (d : Disk) : TreeOp → Option Disk
  | .mkdir path => Outcome.after (fMkdir (some vol) path d)
  | .rename oldPath newPath => Outcome.after (fRename (some vol) oldPath newPath d)
  | .unlink path => Outcome.after (fUnlink (some vol) path d)

section Paths

variable {path : Bytes}
  {final final' : Nat → Bytes → Prop}

variable (hg : Geometry vol) (hs : Shows vol d img) (hw : WellFormed vol img)
include hg hs hw

/-- What is done with an entry that the lookup finds. -/
theorem withEntry_sat {α : Type} {P : α → Disk → Prop}
    {op : Nat → Nat → Op Disk FError α} (hc : DirCluster vol img c)
    (hop : ∀ p, Selects vol img c name p → (op p.1 p.2 d).Sat P fun _ d' => d' = d) :
    (withEntry vol c name op d).Sat P fun _ d' => d' = d := by
  rw [withEntry]
  apply sat_bind
  refine (findEntryInDir_sat hg hs.view_eq (hw.treeOk hg) hc name).mono ?_ fun _ _ h => h.elim
  rintro r d₂ ⟨rfl, hsel, -⟩
  cases r with
  | none => rfl
  | some p => exact hop p (hsel p rfl)

variable (hpath : PathInTree vol img path final)
include hpath

/-- **`f_unlink`** of an entry of the tree that is not `.` or `..`. -/
theorem fUnlink_sat
    (hdot : ∀ c name p, final c name → Selects vol img c name p → ¬ IsDot (img.slot p)) :
    (fUnlink (some vol) path d).Sat
      (fun _ d' => ∃ c name p img', DirCluster vol img c ∧ final c name ∧
        Selects vol img c name p ∧ Owner.Live vol img (some p) ∧ Shows vol d' img' ∧
        Unlinked vol img p img') fun _ d' => d' = d := by
  have ht := hw.treeOk hg
  rw [fUnlink, withVol]
  apply sat_bind
  refine (resolvePath_sat hg hs.view_eq ht hpath).mono ?_ fun _ _ h => h
  rintro ⟨c, name⟩ d₁ ⟨rfl, hc, hfinal⟩
  simp only at hc hfinal ⊢
  by_cases hempty : name = []
  · rw [if_pos hempty]
    rfl
  rw [if_neg hempty]
  refine withEntry_sat hg hs hw hc fun p hsel => ?_
  obtain ⟨hp, hi, hlive⟩ := hsel.in_tree hc
  have hown : Owner.Live vol img (some p) := ⟨hp, hi, hlive, hdot c name p hfinal hsel⟩
  obtain ⟨m, hm⟩ := ht _ hp
  obtain ⟨d', img', hrun, hs', hun⟩ := unlinkAt_ok hg hs hm.head_valid hi (hw.heads _ hown)
  exact sat_of_ok hrun ⟨c, name, p, img', hc, hfinal, hsel, hown, hs', hun⟩

/-- **`f_mkdir`.** On failure at most a free cluster changed. -/
theorem fMkdir_sat : (fMkdir (some vol) path d).Sat
      (fun _ d' => ∃ c name new q img', DirCluster vol img c ∧ final c name ∧ name ≠ [] ∧
        Misses vol img c name ∧ FirstVacant vol img c q ∧ Shows vol d' img' ∧
        MadeDir vol img new c q name img')
      (fun _ d' => ∃ img', Shows vol d' img' ∧ Spares img img') := by
  have ht := hw.treeOk hg
  have hsame : ∃ img', Shows vol d img' ∧ Spares img img' := ⟨img, hs, .refl img⟩
  rw [fMkdir, withVol]
  apply sat_bind
  refine (resolvePath_sat hg hs.view_eq ht hpath).mono ?_ ?_
  · rintro ⟨c, name⟩ d₁ ⟨rfl, hc, hfinal⟩
    simp only at hc hfinal ⊢
    by_cases hempty : name = []
    · rw [if_pos hempty]
      exact hsame
    rw [if_neg hempty]
    by_cases hlong : 11 < name.length
    · rw [if_pos hlong]
      exact hsame
    rw [if_neg hlong]
    apply sat_bind
    refine (findEntryInDir_sat hg hs.view_eq ht hc name).mono ?_ fun _ _ h => h.elim
    rintro r d₂ ⟨rfl, -, hmiss⟩
    cases r with
    | some p => exact hsame
    | none =>
      refine (mkdirAt_returns hg hs ht hc name).sat.mono ?_ fun _ _ h => h.1
      rintro - d' ⟨new, q, img', hs', hfirst, hmade⟩
      exact ⟨c, name, new, q, img', hc, hfinal, hempty, hmiss rfl, hfirst, hs', hmade⟩
  · rintro e d₁ rfl
    exact hsame

/-- **`f_rename`** of an entry of the tree. -/
theorem fRename_sat {newPath : Bytes} (hnew : PathInTree vol img newPath final') :
    (fRename (some vol) path newPath d).Sat
      (fun _ d' => ∃ c name p c' name' q img', DirCluster vol img c ∧ final c name ∧
        Selects vol img c name p ∧ DirCluster vol img c' ∧ final' c' name' ∧ name' ≠ [] ∧
        Misses vol img c' name' ∧ FirstVacant vol img c' q ∧ Shows vol d' img' ∧
        Moved vol img p q name' img') fun _ d' => d' = d := by
  have ht := hw.treeOk hg
  rw [fRename, withVol]
  apply sat_bind
  refine (resolvePath_sat hg hs.view_eq ht hpath).mono ?_ fun _ _ h => h
  rintro ⟨c, name⟩ d₁ ⟨rfl, hc, hfinal⟩
  simp only at hc hfinal ⊢
  refine withEntry_sat hg hs hw hc fun p hsel => ?_
  obtain ⟨hp, hi, hlive⟩ := hsel.in_tree hc
  obtain ⟨m, hm⟩ := ht _ hp
  rw [renameAt]
  apply sat_bind_ok (readEntryData_shows hg hs.view_eq hm.head_valid p.2)
  apply sat_bind
  refine (resolvePath_sat hg hs.view_eq ht hnew).mono ?_ fun _ _ h => h
  rintro ⟨c', name'⟩ d₃ ⟨rfl, hc', hfinal'⟩
  simp only at hc' hfinal' ⊢
  by_cases hempty : name' = []
  · rw [if_pos hempty]
    rfl
  rw [if_neg hempty]
  apply sat_bind
  refine (findEntryInDir_sat hg hs.view_eq ht hc' name').mono ?_ fun _ _ h => h.elim
  rintro r' d₄ ⟨rfl, -, hmiss⟩
  cases r' with
  | some _ => rfl
  | none =>
    refine (moveEntry_sat hg hs ht hc' hp hi hlive name').mono ?_ fun _ _ h => h
    rintro - d' ⟨q, img', hs', hfirst, hmoved⟩
    exact ⟨c, name, p, c', name', q, img', hc, hfinal, hsel, hc', hfinal', hempty, hmiss rfl,
      hfirst, hs', hmoved⟩

end Paths

end PlanckOS.Fat32
