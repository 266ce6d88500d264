import PlanckOS.Fat32.Enumerate
import PlanckOS.Fat32.FailedCreate
import PlanckOS.Lib.Orbit

/-!
# Walks along the table

`find_entry_in_dir`, the search for a free slot, `f_getlabel`, the count of `f_expand` and repeated
calls of `f_readdir` follow the links of the table without a bound and change nothing. Each of them
is a walk: at a cluster it stops, for a reason of its own, or goes on to the next one. The links are
numbers of 28 bits, so that such a walk ends exactly when it does not run into a cycle of clusters
at none of which it stops (`walks_end_iff`). On a table with a cycle none of them need end
(`walks_circle`).
-/

set_option autoImplicit false

namespace PlanckOS.Fat32

open Lib.Fallible Lib.Orbit FatVolume List

/-! ## Where each walk stops -/

section

variable (vol : FatVolume) (d : Disk)

/-- `find_entry_in_dir` stops at a number that is no cluster's, and at a slot that it does not
skip. -/
def FindStops (target : Bytes) (c : Nat) : Prop :=
  ¬ (2 ≤ c ∧ c < END_MARK) ∨
    ∃ i < vol.slotsPerCluster, checkSlot (entryAt (vol.clusterOn d c) i) target ≠ .skip

/-- The search for a slot stops at a vacant one and at the end of the chain. -/
def SlotStops (c : Nat) : Prop :=
  END_MARK ≤ vol.nextOn d c ∨ ∃ i < vol.slotsPerCluster, Vacant (entryAt (vol.clusterOn d c) i)

/-- The slot of a label, or one that was never used. -/
def LabelSlot (e : Entry) : Prop := e 0 = 0 ∨ (e 0 ≠ 0xE5 ∧ attrOf e = ATTR_VOLUME)
  deriving Decidable

/-- `f_getlabel` stops at such a slot and at the end of the chain. -/
def LabelStops (c : Nat) : Prop :=
  END_MARK ≤ vol.nextOn d c ∨ ∃ i < vol.slotsPerCluster, LabelSlot (entryAt (vol.clusterOn d c) i)

/-- The count stops at the end of the chain only. -/
def CountStops (c : Nat) : Prop := END_MARK ≤ vol.nextOn d c
  deriving Decidable

/-- `f_readdir` stops behind the last cluster, at a slot that was never used and at a name on which
the pattern panics. -/
def ReadStops (select : Bytes → Option Bool) (p : Slot) : Prop :=
  (vol.slotsPerCluster ≤ p.2 ∧ END_MARK ≤ vol.nextOn d p.1) ∨
    readVerdict select ((vol.imageOn d).slot (vol.slotAt d p)) = .stop ∨
    readVerdict select ((vol.imageOn d).slot (vol.slotAt d p)) = .panic
  deriving Decidable

instance (target : Bytes) (c : Nat) : Decidable (FindStops vol d target c) := instDecidableOr
instance (c : Nat) : Decidable (SlotStops vol d c) := instDecidableOr
instance (c : Nat) : Decidable (LabelStops vol d c) := instDecidableOr

end

/-! ## The scans of one cluster -/

section Scans

variable {buf : Buf} {target : Bytes} {i n : Nat}

/-- A slot among the next `n`, the first one or a later one. -/
theorem exists_slot_succ {P : Nat → Prop} :
    (∃ j, i ≤ j ∧ j < i + (n + 1) ∧ P j) ↔ P i ∨ ∃ j, i + 1 ≤ j ∧ j < i + 1 + n ∧ P j := by
  constructor
  · rintro ⟨j, hle, hlt, hj⟩
    rcases Nat.eq_or_lt_of_le hle with rfl | hlt'
    · exact .inl hj
    · exact .inr ⟨j, hlt', by omega, hj⟩
  · rintro (hi | ⟨j, hle, hlt, hj⟩)
    · exact ⟨i, le_rfl, by omega, hi⟩
    · exact ⟨j, by omega, by omega, hj⟩

theorem scanSlots_ne_exhausted_iff : scanSlots buf target i n ≠ .exhausted ↔
    ∃ j, i ≤ j ∧ j < i + n ∧ checkSlot (entryAt buf j) target ≠ .skip := by
  induction n generalizing i with
  | zero =>
    refine iff_of_false (fun h => h rfl) ?_
    rintro ⟨j, hle, hlt, -⟩
    omega
  | succ n ih =>
    rw [exists_slot_succ, ← ih, scanSlots]
    cases checkSlot (entryAt buf i) target <;> simp

theorem scanLabel_ne_exhausted_iff : scanLabel buf i n ≠ .exhausted ↔
    ∃ j, i ≤ j ∧ j < i + n ∧ LabelSlot (entryAt buf j) := by
  induction n generalizing i with
  | zero =>
    refine iff_of_false (fun h => h rfl) ?_
    rintro ⟨j, hle, hlt, -⟩
    omega
  | succ n ih =>
    rw [exists_slot_succ, ← ih, scanLabel, LabelSlot]
    split
    next h0 => simp [h0]
    next h0 =>
    split
    next h5 => simp [h5]
    next h5 =>
    split
    next ha => simp [h5, ha]
    next ha => simp [h0, ha]

/-- The same over the slots of a cluster. -/
theorem exists_slot_zero {P : Nat → Prop} : (∃ j, 0 ≤ j ∧ j < 0 + n ∧ P j) ↔ ∃ j < n, P j := by
  rw [Nat.zero_add]
  exact exists_congr fun j => and_iff_right (Nat.zero_le j)

end Scans

/-! ## The walks -/

section Walks

variable {vol : FatVolume} {d : Disk} {c : Nat} {target label : Bytes}

theorem findEntryStep_walks : Op.Walks (vol.findEntryStep target : Nat → DevOp Disk _) d id
    (vol.nextOn d) (FindStops vol d target) where
  goes c hgo := by
    obtain ⟨hout, hslots⟩ := not_or.mp hgo
    have hin : 2 ≤ c ∧ c < END_MARK := not_not.mp hout
    have hscan : scanSlots (vol.clusterOn d c) target 0 vol.slotsPerCluster = .exhausted := by
      by_contra h
      exact hslots (exists_slot_zero.mp (scanSlots_ne_exhausted_iff.mp h))
    refine ⟨vol.nextOn d c, ?_, rfl⟩
    rw [findEntryStep, if_pos hin, Op.bind_ok readCluster_run, hscan]
    exact Op.bind_ok readFatEntry_run
  ends c hstop := by
    rw [findEntryStep]
    split
    next hin =>
      have hslots := hstop.resolve_left fun h => h hin
      have hscan := scanSlots_ne_exhausted_iff.mpr (exists_slot_zero.mpr hslots)
      rw [Op.bind_ok readCluster_run]
      cases hresult : scanSlots (vol.clusterOn d c) target 0 vol.slotsPerCluster with
      | found idx => trivial
      | stopped => trivial
      | exhausted => exact absurd hresult hscan
      | panic => rfl
    next => trivial

theorem findSlotStep_walks : Op.Walks (findSlotStep vol : Nat → DevOp Disk _) d id
    (vol.nextOn d) (SlotStops vol d) where
  goes c hgo := by
    obtain ⟨hlink, hslots⟩ := not_or.mp hgo
    have hused : UsedUp vol d c := fun i hi hv => hslots ⟨i, hi, hv⟩
    refine ⟨vol.nextOn d c, ?_, rfl⟩
    rw [findSlotStep_used hused]
    exact if_neg hlink
  ends c hstop := by
    by_cases hused : UsedUp vol d c
    · have hend : END_MARK ≤ vol.nextOn d c := by
        refine hstop.resolve_right ?_
        rintro ⟨i, hi, hv⟩
        exact hused i hi hv
      rw [findSlotStep_used hused, if_pos hend]
      trivial
    · rw [findSlotStep, Op.bind_ok readCluster_run]
      cases hfree : freeSlot (vol.clusterOn d c) 0 vol.slotsPerCluster with
      | some idx => trivial
      | none => exact absurd (freeSlot_none_iff.mp hfree) hused

theorem getlabelStep_walks : Op.Walks (getlabelStep vol label : Nat → DevOp Disk _) d id
    (vol.nextOn d) (LabelStops vol d) where
  goes c hgo := by
    obtain ⟨hlink, hslots⟩ := not_or.mp hgo
    have hscan : scanLabel (vol.clusterOn d c) 0 vol.slotsPerCluster = .exhausted := by
      by_contra h
      exact hslots (exists_slot_zero.mp (scanLabel_ne_exhausted_iff.mp h))
    refine ⟨vol.nextOn d c, ?_, rfl⟩
    rw [getlabelStep, Op.bind_ok readCluster_run, hscan]
    refine (Op.bind_ok readFatEntry_run).trans ?_
    have hgoes : ¬ END_MARK ≤ vol.nextOn d c := hlink
    rw [if_neg hgoes]
    rfl
  ends c hstop := by
    rw [getlabelStep, Op.bind_ok readCluster_run]
    cases hscan : scanLabel (vol.clusterOn d c) 0 vol.slotsPerCluster with
    | stopped => trivial
    | found label => trivial
    | exhausted =>
      have hend : END_MARK ≤ vol.nextOn d c := hstop.resolve_right fun hslots =>
        scanLabel_ne_exhausted_iff.mpr (exists_slot_zero.mpr hslots) hscan
      simp only
      rw [Op.bind_ok readFatEntry_run, if_pos hend]
      trivial

/-- The count is carried along and does not matter. -/
theorem countStep_walks : Op.Walks (countStep vol : Nat × Nat → DevOp Disk _) d Prod.fst
    (vol.nextOn d) (CountStops vol d) where
  goes a hgo := by
    obtain ⟨c, count⟩ := a
    have hlink : ¬ END_MARK ≤ vol.nextOn d c := hgo
    refine ⟨(vol.nextOn d c, (count + 1) % 2 ^ 32), ?_, rfl⟩
    rw [countStep, Op.bind_ok readFatEntry_run, if_neg hlink]
    rfl
  ends a hstop := by
    obtain ⟨c, count⟩ := a
    have hend : END_MARK ≤ vol.nextOn d c := hstop
    rw [countStep, Op.bind_ok readFatEntry_run, if_pos hend]
    trivial

/-- The rounds of all calls of `f_readdir` with one handle. -/
theorem readdirStep_generates (hpos : 0 < vol.slotsPerCluster)
    (hslots : vol.slotsPerCluster < 2 ^ 16)
    (select : Bytes → Option Bool) : Op.Generates (readdirStep vol : Unit → DirOp Disk _)
      (fun s => s.dev = d ∧ s.dir.ended = false ∧ s.dir.select = select) (fun s => s.dir.place)
      (vol.behind d) (ReadStops vol d select) where
  goes s hs hgo := by
    obtain ⟨dev, dir⟩ := s
    obtain ⟨rfl, hopen, rfl⟩ := hs
    obtain ⟨hlink, hstop, hpanic⟩ : ¬ _ ∧ ¬ _ ∧ ¬ _ := by rwa [← not_or, ← not_or]
    obtain ⟨dir', hopen', hplace, hselect, hrun⟩ :=
      readdirStep_slot hpos hslots hopen fun hlast hend => hlink ⟨hlast, hend⟩
    refine ⟨⟨dev, dir'⟩, ⟨rfl, hopen', hselect⟩, hplace, ?_⟩
    -- the slot is passed, or its name is returned; the handle is behind it either way
    cases hverdict : readVerdict dir.select ((vol.imageOn dev).slot (vol.slotAt dev dir.place)) with
    | stop => exact absurd hverdict hstop
    | panic => exact absurd hverdict hpanic
    | skip =>
      rw [hverdict] at hrun
      exact .inl hrun
    | hit name =>
      rw [hverdict] at hrun
      exact .inr ⟨name, hrun⟩
  ends s hs hstop := by
    obtain ⟨dev, dir⟩ := s
    obtain ⟨rfl, hopen, rfl⟩ := hs
    by_cases hlink : vol.slotsPerCluster ≤ dir.entryIndex ∧
      END_MARK ≤ vol.nextOn dev dir.currentCluster
    · rw [readdirStep_end hopen hlink.1 hlink.2]
      trivial
    · obtain ⟨dir', -, -, -, hrun⟩ :=
        readdirStep_slot hpos hslots hopen fun hlast hend => hlink ⟨hlast, hend⟩
      rcases hstop.resolve_left hlink with hverdict | hverdict
      · rw [hverdict] at hrun
        rw [hrun]
        trivial
      · rw [hverdict] at hrun
        rw [hrun]
        rfl

/-- A handle that has come to the end. -/
theorem listDir_ended {dir : Dir} (hended : dir.ended = true) :
    listDir (some vol) ⟨d, dir⟩ = .ok [] ⟨d, dir⟩ := by
  obtain ⟨n, hbound⟩ := loopBound_succ
  have hcall : fReaddir (some vol) ⟨d, dir⟩ = .ok none ⟨d, dir⟩ := by
    rw [fReaddir, hbound]
    exact Op.loopM_done (readdirStep_ended hended)
  rw [listDir, hbound]
  exact Op.loopM_done (Op.bind_ok hcall)

/-! ### Finitely many clusters -/

theorem nextOn_iterate_mem (vol : FatVolume) (d : Disk) (c k : Nat) :
    (vol.nextOn d)^[k + 1] c ∈ links := by
  rw [Function.iterate_succ_apply', mem_links]
  exact nextOn_lt vol d _

theorem card_links_lt : links.card < LOOP_BOUND := by
  rw [card_links, LOOP_BOUND]
  norm_num

/-- The places that the calls of `f_readdir` come to. -/
def places (vol : FatVolume) (c : Nat) : Finset Slot :=
  insert c links ×ˢ Finset.range (vol.slotsPerCluster + 1)

theorem behind_mem_places (hpos : 0 < vol.slotsPerCluster) {p : Slot} (hp : p.1 ∈ insert c links) :
    vol.behind d p ∈ places vol c := by
  rw [places, Finset.mem_product, Finset.mem_range, behind, slotAt]
  split
  next =>
    refine ⟨Finset.mem_insert_of_mem (mem_links.mpr (nextOn_lt vol d _)), ?_⟩
    simp only
    omega
  next hin =>
    refine ⟨hp, ?_⟩
    simp only
    omega

theorem behind_iterate_mem (hpos : 0 < vol.slotsPerCluster) (p : Slot) (k : Nat) :
    (vol.behind d)^[k + 1] p ∈ places vol p.1 := by
  induction k with
  | zero => exact behind_mem_places hpos (Finset.mem_insert_self _ _)
  | succ k ih =>
    rw [Function.iterate_succ_apply']
    exact behind_mem_places hpos (Finset.mem_product.mp ih).1

theorem card_places_lt (hslots : vol.slotsPerCluster < 2 ^ 16) (c : Nat) :
    (places vol c).card < LOOP_BOUND := by
  have hinsert : (insert c links).card ≤ 2 ^ 28 + 1 := by
    have h := Finset.card_insert_le c links
    rwa [card_links] at h
  rw [places, Finset.card_product, Finset.card_range]
  calc (insert c links).card * (vol.slotsPerCluster + 1)
      ≤ (2 ^ 28 + 1) * 2 ^ 16 := Nat.mul_le_mul hinsert hslots
    _ < LOOP_BOUND := by
      rw [LOOP_BOUND]
      norm_num

/-! ### The calls -/

section

variable (vol : FatVolume) (d : Disk)

theorem findEntryInDir_diverges_iff (c : Nat) (target : Bytes) :
    vol.findEntryInDir c target d = .fault .diverge ↔
      Circles (vol.nextOn d) (FindStops vol d target) c :=
  findEntryStep_walks.diverges_iff (nextOn_iterate_mem vol d c) card_links_lt

theorem findSlot_diverges_iff (c : Nat) :
    findSlot vol c d = .fault .diverge ↔ Circles (vol.nextOn d) (SlotStops vol d) c :=
  findSlotStep_walks.diverges_iff (nextOn_iterate_mem vol d c) card_links_lt

theorem fGetlabel_diverges_iff (label : Bytes) : fGetlabel (some vol) label d = .fault .diverge ↔
      Circles (vol.nextOn d) (LabelStops vol d) vol.rootCluster :=
  getlabelStep_walks.diverges_iff (nextOn_iterate_mem vol d vol.rootCluster) card_links_lt

theorem countChain_diverges_iff (c : Nat) :
    countChain vol c d = .fault .diverge ↔ Circles (vol.nextOn d) (CountStops vol d) c :=
  countStep_walks.diverges_iff (a := (c, 1)) (nextOn_iterate_mem vol d c) card_links_lt

end

theorem listDir_eq (vol : FatVolume) : listDir (some vol) =
    Op.loopM (collectStep (Op.loopM (readdirStep vol) LOOP_BOUND ())) LOOP_BOUND [] := by
  have hstep : listStep (some vol) = collectStep (fReaddir (some vol)) := by
    funext names s
    show Op.bind _ _ s = Op.bind _ _ s
    rw [Op.bind, Op.bind]
    cases (fReaddir (some vol) : DirOp Disk _) s with
    | ok r s' => cases r <;> rfl
    | err e s' => rfl
    | fault w => rfl
  rw [listDir, hstep]
  rfl

/-- **Repeated calls of `f_readdir`** with a handle that has not come to the end. -/
theorem listDir_diverges_iff (hpos : 0 < vol.slotsPerCluster)
    (hslots : vol.slotsPerCluster < 2 ^ 16)
    {dir : Dir} (hopen : dir.ended = false) : listDir (some vol) ⟨d, dir⟩ = .fault .diverge ↔
      Circles (vol.behind d) (ReadStops vol d dir.select) dir.place := by
  have hgenerates := readdirStep_generates (d := d) hpos hslots dir.select
  have hcard := card_places_lt hslots dir.place.1
  rw [listDir_eq]
  exact hgenerates.diverges_iff (s := ⟨d, dir⟩) (behind_iterate_mem hpos dir.place) hcard hcard []
    ⟨rfl, hopen, rfl⟩

end Walks

/-- **The walks end exactly when they do not run into a cycle** at none of whose clusters they stop.
For every volume and device, whatever the table holds. A handle that has come to the end of its
directory stays there. -/
theorem walks_end_iff (vol : FatVolume) (d : Disk) (hpos : 0 < vol.slotsPerCluster)
    (hslots : vol.slotsPerCluster < 2 ^ 16) :
    (∀ c target, vol.findEntryInDir c target d ≠ .fault .diverge ↔
      ¬ Circles (vol.nextOn d) (FindStops vol d target) c) ∧
    (∀ c, findSlot vol c d ≠ .fault .diverge ↔ ¬ Circles (vol.nextOn d) (SlotStops vol d) c) ∧
    (∀ label, fGetlabel (some vol) label d ≠ .fault .diverge ↔
      ¬ Circles (vol.nextOn d) (LabelStops vol d) vol.rootCluster) ∧
    (∀ c, countChain vol c d ≠ .fault .diverge ↔ ¬ Circles (vol.nextOn d) (CountStops vol d) c) ∧
    ∀ dir : Dir, listDir (some vol) ⟨d, dir⟩ ≠ .fault .diverge ↔
      dir.ended = true ∨ ¬ Circles (vol.behind d) (ReadStops vol d dir.select) dir.place := by
  refine ⟨fun c target => not_congr ?_, fun c => not_congr ?_, fun label => not_congr ?_,
    fun c => not_congr ?_, fun dir => ?_⟩
  · exact findEntryInDir_diverges_iff vol d c target
  · exact findSlot_diverges_iff vol d c
  · exact fGetlabel_diverges_iff vol d label
  · exact countChain_diverges_iff vol d c
  · by_cases hended : dir.ended = true
    · refine iff_of_true ?_ (.inl hended)
      rw [listDir_ended hended]
      rintro ⟨⟩
    · rw [or_iff_right hended]
      exact not_congr (listDir_diverges_iff hpos hslots (Bool.eq_false_of_not_eq_true hended))

/-- A root directory of two clusters: every walk follows the link and stops in the second one. -/
theorem walks_end_iff_abc : tinyVol.findEntryInDir 2 [0x46] abcDisk ≠ .fault .diverge ∧
    findSlot tinyVol 2 abcDisk ≠ .fault .diverge ∧
    fGetlabel (some tinyVol) [] abcDisk ≠ .fault .diverge ∧
    countChain tinyVol 2 abcDisk ≠ .fault .diverge ∧
    listDir (some tinyVol) ⟨abcDisk, rootDir (replicate 11 0) 0⟩ ≠ .fault .diverge := by
  obtain ⟨hfind, hslot, hlabel, hcount, hread⟩ :=
    walks_end_iff tinyVol abcDisk (by decide) (by decide)
  refine ⟨(hfind 2 [0x46]).mpr fun h => ?_, (hslot 2).mpr fun h => ?_, (hlabel []).mpr fun h => ?_,
    (hcount 2).mpr fun h => ?_, (hread _).mpr (.inr fun h => ?_)⟩
  · exact h.not_stops 1 (by decide +kernel)
  · exact h.not_stops 1 (by decide +kernel)
  · exact h.not_stops 1 (by decide +kernel)
  · exact h.not_stops 1 (by decide +kernel)
  · -- the third slot of the second cluster was never used
    exact h.not_stops 18 (by decide +kernel)

/-! ## A table with a cycle -/

/-- The root directory's cluster is linked to itself, and its slots are all in use. -/
def circularDisk : Disk :=
  diskOf [0x0FFFFFF8, 0x0FFFFFFF, 2] [(replicate 16 (fileSlot [0x41] 0 0)).flatten]

/-- Every entry of the table is in range, and none of the walks ends: the lookup of a name that is
not there, the search for a slot, the label, the count and the calls of `f_readdir`, which yield the
same names again and again. -/
theorem walks_circle : (∀ c < 128, tinyVol.nextOn circularDisk c < 128 ∨
      END_MARK ≤ tinyVol.nextOn circularDisk c) ∧
    tinyVol.findEntryInDir 2 [0x42] circularDisk = .fault .diverge ∧
    findSlot tinyVol 2 circularDisk = .fault .diverge ∧
    fGetlabel (some tinyVol) (replicate 12 0) circularDisk =
      .fault .diverge ∧
    countChain tinyVol 2 circularDisk = .fault .diverge ∧
    listDir (some tinyVol) ⟨circularDisk, rootDir (replicate 11 0) 0⟩ =
      .fault .diverge := by
  have hself : tinyVol.nextOn circularDisk 2 = 2 := by decide +kernel
  have hcircles : ∀ {stops : Nat → Prop}, ¬ stops 2 →
      Circles (tinyVol.nextOn circularDisk) stops 2 := by
    intro stops hstop
    refine ⟨0, 1, Nat.zero_lt_one, hself.symm, fun k hk => ?_⟩
    obtain rfl := Nat.lt_one_iff.mp hk
    exact hstop
  have hplaces : Circles (tinyVol.behind circularDisk)
      (ReadStops tinyVol circularDisk (rootDir (replicate 11 0) 0).select)
      (rootDir (replicate 11 0) 0).place :=
    -- the first place behind the first slot is met again after sixteen slots
    ⟨1, 17, by decide, by decide +kernel, by decide +kernel⟩
  refine ⟨by decide +kernel, ?_, ?_, ?_, ?_, ?_⟩
  · exact (findEntryInDir_diverges_iff _ _ _ _).mpr (hcircles (by decide +kernel))
  · exact (findSlot_diverges_iff _ _ _).mpr (hcircles (by decide +kernel))
  · exact (fGetlabel_diverges_iff _ _ _).mpr (hcircles (by decide +kernel))
  · exact (countChain_diverges_iff _ _ _).mpr (hcircles (by decide +kernel))
  · exact (listDir_diverges_iff (by decide) (by decide) rfl).mpr hplaces

end PlanckOS.Fat32
