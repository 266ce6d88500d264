import PlanckOS.Fat32.Manage
import PlanckOS.Fat32.View

/-!
# Directory lookup

What `find_entry_in_dir` returns, as a function of the slots of the directory (`scanDir`,
`findEntryInDir_eq`), and how this compares with the slot that carries the name looked for
(`namedSlot`). The comparison loop of the source stops at the end of the target, so an entry matches
as soon as its name *starts with* the target, and a slot with the volume bit is skipped before its
first byte is looked at, so an end marker there is missed. `lookup_exact` says when neither matters,
and that the operations on paths then work on the right slot.
-/

set_option autoImplicit false

namespace PlanckOS.Fat32

open Lib.Fallible FatVolume List

variable {c : Nat} {l : List Nat} {d : Disk} {target name : Bytes} {e : Entry}

/-! ## Slots -/

/-- A directory slot: its cluster and its index there. -/
abbrev Slot := Nat × Nat

/-- The 32 bytes of a slot. -/
def Image.slot (img : Image) (p : Slot) : Entry := entryAt (img.data p.1) p.2

/-- The slots of one cluster. -/
def FatVolume.clusterSlots (vol : FatVolume) (c : Nat) : List Slot :=
  (range' 0 vol.slotsPerCluster).map fun i => (c, i)

/-- The slots of a directory, given the clusters of its chain. -/
def FatVolume.dirSlots (vol : FatVolume) (l : List Nat) : List Slot := l.flatMap vol.clusterSlots

theorem mem_clusterSlots {vol : FatVolume} {p : Slot} :
    p ∈ vol.clusterSlots c ↔ p.1 = c ∧ p.2 < vol.slotsPerCluster := by
  rw [clusterSlots, mem_map]
  constructor
  · rintro ⟨i, hi, rfl⟩
    rw [mem_range'_1] at hi
    exact ⟨rfl, by omega⟩
  · rintro ⟨rfl, hi⟩
    exact ⟨p.2, mem_range'_1.mpr (by omega), rfl⟩

theorem mem_dirSlots {vol : FatVolume} {p : Slot} :
    p ∈ vol.dirSlots l ↔ p.1 ∈ l ∧ p.2 < vol.slotsPerCluster := by
  rw [dirSlots, mem_flatMap]
  constructor
  · rintro ⟨c, hc, hp⟩
    obtain ⟨rfl, hi⟩ := mem_clusterSlots.mp hp
    exact ⟨hc, hi⟩
  · rintro ⟨hc, hi⟩
    exact ⟨p.1, hc, mem_clusterSlots.mpr ⟨rfl, hi⟩⟩

/-! ## The scan -/

/-- `find_entry_in_dir` over the slots of a directory; `none` is an index out of bounds. -/
def scanDir (img : Image) (target : Bytes) : List Slot → Option (Option Slot)
  | [] => some none
  | p :: ps =>
      match checkSlot (img.slot p) target with
      | .skip => scanDir img target ps
      | .stop => some none
      | .hit => some (some p)
      | .panic => none

/-- How the scan goes on after one cluster. -/
def FatVolume.ScanResult.resume (c : Nat) (rest : Option (Option Slot)) :
    ScanResult → Option (Option Slot)
  | .found idx => some (some (c, idx))
  | .stopped => some none
  | .exhausted => rest
  | .panic => none

theorem scanDir_cluster (img : Image) (target : Bytes) (c i n : Nat) (ps : List Slot) :
    scanDir img target ((range' i n).map (fun i => (c, i)) ++ ps) =
      (scanSlots (img.data c) target i n).resume c (scanDir img target ps) := by
  induction n generalizing i with
  | zero => rfl
  | succ n ih =>
    have hslot : img.slot (c, i) = entryAt (img.data c) i := rfl
    rw [range'_succ, map_cons, cons_append, scanDir, scanSlots, hslot]
    cases checkSlot (entryAt (img.data c) i) target with
    | skip => exact ih (i + 1)
    | stop => rfl
    | hit => rfl
    | panic => rfl

section Directory

variable {vol : FatVolume} {img : Image}

/-- A chain has at most as many clusters as the volume. -/
theorem chain_length_le (hg : Geometry vol) (hl : img.Chain vol c l) :
    l.length ≤ vol.maxCluster := by
  have hle : l.length ≤ (range vol.maxCluster).length :=
    (hl.nodup hg.not_stop).subperm (fun x hx => mem_range.mpr (hl.valid_of_mem hx).2) |>.length_le
  rwa [length_range] at hle

/-- A directory chain is shorter than the bound of the loops over it. -/
theorem chain_length_lt (hg : Geometry vol) (hl : img.Chain vol c l) : l.length < LOOP_BOUND := by
  have hle := chain_length_le hg hl
  have hmax := hg.clusters_le
  rw [END_MARK] at hmax
  rw [LOOP_BOUND]
  omega

/-- How `find_entry_in_dir` ends, given the scan. -/
def lookupOutcome (d : Disk) : Option (Option Slot) → Outcome Disk FError (Option Slot)
  | some r => .ok r d
  | none => .fault .panic

/-- **`find_entry_in_dir` returns what the scan of the directory's slots yields.** -/
theorem findEntryInDir_eq (hg : Geometry vol) (hv : view vol d = img) (hl : img.Chain vol c l)
    (target : Bytes) : vol.findEntryInDir c target d =
      lookupOutcome d (scanDir img target (vol.dirSlots l)) := by
  -- one round per cluster of the chain, and one more for the end mark
  suffices h : ∀ n, l.length < n → Op.loopM (vol.findEntryStep target) n c d =
      lookupOutcome d (scanDir img target (vol.dirSlots l)) from h _ (chain_length_lt hg hl)
  have hround : ∀ {a : Nat} {ps : List Slot} {n : Nat}, vol.Valid a →
      Op.loopM (vol.findEntryStep target) n (img.next a) d =
        lookupOutcome d (scanDir img target ps) →
      Op.loopM (vol.findEntryStep target) (n + 1) a d =
        lookupOutcome d (scanDir img target (vol.clusterSlots a ++ ps)) := by
    intro a ps n ha hrest
    rw [clusterSlots, scanDir_cluster, Op.loopM]
    show Op.bind _ _ d = _
    rw [Op.bind, findEntryStep, if_pos ⟨ha.1, hg.lt_end ha⟩,
      Op.bind_ok (readCluster_shows hg hv ha)]
    cases scanSlots (img.data a) target 0 vol.slotsPerCluster with
    | found idx => rfl
    | stopped => rfl
    | panic => rfl
    | exhausted =>
      simp only
      rw [Op.bind_ok (readFatEntry_shows hg hv ha.2)]
      exact hrest
  induction hl with
  | @last a ha hs =>
    intro n hn
    obtain ⟨n, rfl⟩ : ∃ m, n = m + 2 := ⟨n - 2, by rw [length_singleton] at hn; omega⟩
    apply hround ha
    refine Op.loopM_done ?_
    rw [findEntryStep, if_neg fun h => Nat.not_lt.mpr hs h.2]
    rfl
  | @link a l ha h ih =>
    intro n hn
    obtain ⟨n, rfl⟩ : ∃ m, n = m + 1 := ⟨n - 1, by rw [length_cons] at hn; omega⟩
    rw [length_cons] at hn
    rw [dirSlots, flatMap_cons]
    exact hround ha (ih n (by omega))

/-- Nothing is found in cluster 0. -/
theorem findEntryInDir_zero (vol : FatVolume) (target : Bytes) (d : Disk) :
    vol.findEntryInDir 0 target d = .ok none d := by
  obtain ⟨n, hbound⟩ := loopBound_succ
  rw [findEntryInDir, hbound]
  refine Op.loopM_done ?_
  rw [findEntryStep, if_neg (by decide)]
  rfl

end Directory

/-! ## The walk of `resolve_path` -/

section Steps

variable {vol : FatVolume} {rest : List Bytes}

theorem resolveFrom_nil_cons (hrest : rest ≠ []) :
    (resolveFrom vol c ([] :: rest) : DevOp Disk _) = resolveFrom vol c rest := by
  obtain ⟨next, rest, rfl⟩ := exists_cons_of_ne_nil hrest
  rw [resolveFrom, if_pos rfl]
  simp

variable (hne : name ≠ []) (hrest : rest ≠ [])
include hne hrest

/-- A lookup that finds nothing ends the walk. -/
theorem resolveFrom_missing (hfind : vol.findEntryInDir c name d = .ok none d) :
    resolveFrom vol c (name :: rest) d = .err .noPath d := by
  obtain ⟨next, rest, rfl⟩ := exists_cons_of_ne_nil hrest
  rw [resolveFrom, if_neg hne]
  · exact Op.bind_ok hfind
  · simp

theorem resolveFrom_fault {w : Fault} (hfind : vol.findEntryInDir c name d = .fault w) :
    resolveFrom vol c (name :: rest) d = .fault w := by
  obtain ⟨next, rest, rfl⟩ := exists_cons_of_ne_nil hrest
  rw [resolveFrom, if_neg hne]
  · exact Op.bind_fault hfind
  · simp

/-- The walk goes on with the cluster that the entry found stores. -/
theorem resolveFrom_found {p : Slot} (hfind : vol.findEntryInDir c name d = .ok (some p) d)
    (hread : vol.readEntryData p.1 p.2 d = .ok e d) :
    resolveFrom vol c (name :: rest) d = resolveFrom vol (startOf e) rest d := by
  obtain ⟨next, rest, rfl⟩ := exists_cons_of_ne_nil hrest
  rw [resolveFrom, if_neg hne]
  · exact (Op.bind_ok hfind).trans (Op.bind_ok hread)
  · simp

/-- A walk that returns has looked up its first component. -/
theorem resolveFrom_looked {d' : Disk} {r : Nat × Bytes}
    (h : resolveFrom vol c (name :: rest) d = .ok r d') :
    ∃ found t, vol.findEntryInDir c name d = .ok found t := by
  obtain ⟨next, rest, rfl⟩ := exists_cons_of_ne_nil hrest
  rw [resolveFrom, if_neg hne] at h
  · obtain ⟨found, t, hfind, -⟩ := Op.bind_eq_ok h
    exact ⟨found, t, hfind⟩
  · simp

end Steps

/-! ## The slot with the name -/

/-- A volume label or a part of a long name. -/
def Hidden (e : Entry) : Prop := attrOf e = ATTR_LFN ∨ attrOf e &&& ATTR_VOLUME ≠ 0
  deriving Decidable

/-- The first byte of a slot behind which no slot is used. -/
def EndMarker (e : Entry) : Prop := e 0 = 0
  deriving Decidable

/-- A slot that names a file or a directory. -/
def LiveEntry (e : Entry) : Prop := ¬ Hidden e ∧ ¬ EndMarker e ∧ e 0 ≠ 0xE5
  deriving Decidable

/-- Names are compared without regard to the case of ASCII letters. -/
def foldCase (name : Bytes) : Bytes := name.map asciiLower

/-- The decoded name of the slot is the target. -/
def Named (target : Bytes) (e : Entry) : Prop := foldCase (decodedName e) = foldCase target
  deriving Decidable

/-- The decoded name of the slot starts with the target. -/
def StartsWith (target : Bytes) (e : Entry) : Prop :=
  foldCase target <+: foldCase (decodedName e)
  deriving Decidable

theorem Named.startsWith (h : Named target e) : StartsWith target e := by
  rw [StartsWith, h]

/-- The first live entry before the end marker whose name is the target. -/
def namedSlot (img : Image) (target : Bytes) : List Slot → Option Slot
  | [] => none
  | p :: ps =>
      if EndMarker (img.slot p) then none
      else if LiveEntry (img.slot p) ∧ Named target (img.slot p) then some p
      else namedSlot img target ps

theorem nameRun_length_le (e : Entry) (j n : Nat) : (nameRun e j n).length ≤ n := by
  induction n generalizing j with
  | zero => exact Nat.le_refl 0
  | succ n ih =>
    rw [nameRun]
    split
    · rw [length_cons]
      have := ih (j + 1)
      omega
    · exact Nat.zero_le _

theorem decodedName_length_le (e : Entry) : (decodedName e).length ≤ 12 := by
  have hbase := nameRun_length_le e 0 8
  have hext := nameRun_length_le e 8 3
  rw [decodedName]
  split
  · rw [length_append, length_cons]
    omega
  · omega

/-- A byte that is no letter is compared with itself only. -/
theorem eq_of_asciiLower_eq {b t : UInt8} (ht : ¬ (0x61 ≤ t ∧ t ≤ 0x7A))
    (h : asciiLower b = t) : b = t := by
  rw [asciiLower] at h
  split_ifs at h with hrange
  · subst h
    simp only [UInt8.le_iff_toNat_le, UInt8.toNat_add] at ht hrange
    have h20 : (0x20 : UInt8).toNat = 0x20 := rfl
    have h41 : (0x41 : UInt8).toNat = 0x41 := rfl
    have h5a : (0x5A : UInt8).toNat = 0x5A := rfl
    have h61 : (0x61 : UInt8).toNat = 0x61 := rfl
    have h7a : (0x7A : UInt8).toNat = 0x7A := rfl
    omega
  · exact h

theorem asciiLower_ne_zero {b : UInt8} (hb : b ≠ 0) : asciiLower b ≠ 0 :=
  fun h => hb (eq_of_asciiLower_eq (by decide) h)

/-- The comparison loop, on a padded name and a target without NUL bytes: the padding stops it, so
that no index leaves the name. -/
theorem targetMatched_padded {k : Nat} (hk : 0 < k)
    (ht : (0 : UInt8) ∉ target) : targetMatched (name ++ replicate k 0) target =
      some (decide (foldCase target <+: foldCase name)) := by
  induction name generalizing target with
  | nil =>
    cases target with
    | nil => simp [targetMatched, foldCase]
    | cons t ts =>
      obtain ⟨k, rfl⟩ : ∃ m, k = m + 1 := ⟨k - 1, by omega⟩
      have ht0 : t ≠ 0 := fun h => ht (h ▸ mem_cons_self)
      have hne : eqIgnoreAsciiCase 0 t = false := by
        rw [eqIgnoreAsciiCase, beq_eq_false_iff_ne]
        exact fun h => asciiLower_ne_zero ht0 (h.symm.trans (by decide))
      rw [nil_append, replicate_succ, targetMatched, hne]
      simp [foldCase]
  | cons n ns ih =>
    cases target with
    | nil => simp [targetMatched, foldCase]
    | cons t ts =>
      have hts : (0 : UInt8) ∉ ts := fun h => ht (mem_cons_of_mem _ h)
      rw [cons_append, targetMatched, ih hts]
      by_cases hnt : asciiLower n = asciiLower t
      · have heq : eqIgnoreAsciiCase n t = true := by rw [eqIgnoreAsciiCase, beq_iff_eq, hnt]
        rw [if_pos heq]
        congr 1
        rw [decide_eq_decide]
        simp [foldCase, hnt]
      · have hne : eqIgnoreAsciiCase n t = false := by
          rw [eqIgnoreAsciiCase, beq_eq_false_iff_ne]
          exact hnt
        simp [hne, foldCase, Ne.symm hnt]

/-- **What the scan does at a slot.** -/
theorem checkSlot_eq (hne : target ≠ []) (ht : (0 : UInt8) ∉ target)
    (e : Entry) : checkSlot e target =
      if Hidden e then .skip else if EndMarker e then .stop
      else if LiveEntry e ∧ StartsWith target e then .hit else .skip := by
  rw [checkSlot]
  by_cases hh : Hidden e
  · rw [if_pos hh]
    exact if_pos hh
  rw [if_neg hh]
  refine (if_neg hh).trans ?_
  by_cases hm : EndMarker e
  · rw [if_pos hm]
    exact if_pos hm
  rw [if_neg hm]
  refine (if_neg hm).trans ?_
  by_cases hd : e 0 = 0xE5
  · rw [if_pos hd, if_neg fun h => h.1.2.2 hd]
  have hlive : LiveEntry e := ⟨hh, hm, hd⟩
  rw [if_neg hd, readDirEntryName]
  by_cases hlen : (decodedName e).length = 0
  · -- an entry without a name starts with no target
    have hnil : decodedName e = [] := length_eq_zero_iff.mp hlen
    have hno : ¬ StartsWith target e := by
      intro h
      rw [StartsWith, hnil] at h
      have := prefix_nil.mp h
      exact hne (map_eq_nil_iff.mp this)
    rw [if_pos hlen, if_neg fun h => hno h.2]
  · have hpad := decodedName_length_le e
    rw [if_neg hlen]
    simp only
    rw [targetMatched_padded (by omega) ht]
    by_cases hs : StartsWith target e
    · rw [if_pos ⟨hlive, hs⟩, show decide (foldCase target <+: foldCase (decodedName e)) = true from
        decide_eq_true hs]
    · rw [if_neg fun h => hs h.2,
        show decide (foldCase target <+: foldCase (decodedName e)) = false from decide_eq_false hs]

/-! ## When the lookup is right -/

/-- Slot `i` of the directory is live, has the name, and lies before any end marker. -/
def Rightful (img : Image) (target : Bytes) (slots : List Slot) (i : Nat) : Prop :=
  (∃ p, slots[i]? = some p ∧ LiveEntry (img.slot p) ∧ Named target (img.slot p)) ∧
    ∀ j < i, ∀ q, slots[j]? = some q → ¬ EndMarker (img.slot q)

/-- Every live entry whose name starts with the target is the one looked for, or comes behind it or
behind an end marker that has no volume bit. -/
def Unambiguous (img : Image) (target : Bytes) (slots : List Slot) : Prop :=
  ∀ i p, slots[i]? = some p → LiveEntry (img.slot p) → StartsWith target (img.slot p) →
    Rightful img target slots i ∨ ∃ j < i, Rightful img target slots j ∨
      ∃ q, slots[j]? = some q ∧ EndMarker (img.slot q) ∧ ¬ Hidden (img.slot q)

section Comparison

variable {img : Image} {p : Slot} {ps : List Slot}

theorem rightful_cons (hm : ¬ EndMarker (img.slot p)) (i : Nat) :
    Rightful img target (p :: ps) (i + 1) ↔ Rightful img target ps i := by
  refine and_congr (by simp) ?_
  constructor
  · intro h j hj q hq
    exact h (j + 1) (by omega) q (by simpa using hq)
  · intro h j hj q hq
    cases j with
    | zero =>
      obtain rfl : p = q := by simpa using hq
      exact hm
    | succ j => exact h j (by omega) q (by simpa using hq)

theorem not_rightful_of_marker (hm : EndMarker (img.slot p)) (i : Nat) :
    ¬ Rightful img target (p :: ps) i := by
  intro h
  cases i with
  | zero =>
    obtain ⟨⟨q, hq, hlive, -⟩, -⟩ := h
    obtain rfl : p = q := by simpa using hq
    exact hlive.2.1 hm
  | succ i => exact h.2 0 (by omega) p rfl hm

/-- A slot that is neither taken nor a mark changes nothing. -/
theorem unambiguous_cons (hm : ¬ EndMarker (img.slot p))
    (hno : ¬ (LiveEntry (img.slot p) ∧ StartsWith target (img.slot p))) :
    Unambiguous img target (p :: ps) ↔ Unambiguous img target ps := by
  have hzero : ¬ Rightful img target (p :: ps) 0 := by
    rintro ⟨⟨q, hq, hlive, hname⟩, -⟩
    obtain rfl : p = q := by simpa using hq
    exact hno ⟨hlive, hname.startsWith⟩
  constructor
  · intro h i q hq hlive hstart
    rcases h (i + 1) q (by simpa using hq) hlive hstart with hr | ⟨j, hj, hr⟩
    · exact .inl ((rightful_cons hm i).mp hr)
    · cases j with
      | zero =>
        rcases hr with hr | ⟨r, hr, hmark, -⟩
        · exact absurd hr hzero
        · obtain rfl : p = r := by simpa using hr
          exact absurd hmark hm
      | succ j =>
        refine .inr ⟨j, by omega, hr.imp (rightful_cons hm j).mp ?_⟩
        rintro ⟨r, hr, hmark⟩
        exact ⟨r, by simpa using hr, hmark⟩
  · intro h i q hq hlive hstart
    cases i with
    | zero =>
      obtain rfl : p = q := by simpa using hq
      exact absurd ⟨hlive, hstart⟩ hno
    | succ i =>
      rcases h i q (by simpa using hq) hlive hstart with hr | ⟨j, hj, hr⟩
      · exact .inl ((rightful_cons hm i).mpr hr)
      · refine .inr ⟨j + 1, by omega, hr.imp (rightful_cons hm j).mpr ?_⟩
        rintro ⟨r, hr, hmark⟩
        exact ⟨r, by simpa using hr, hmark⟩

variable (hne : target ≠ []) (ht : (0 : UInt8) ∉ target)
include hne ht

/-- The lookup of a name without NUL bytes does not leave the buffer. -/
theorem scanDir_ne_none (slots : List Slot) : scanDir img target slots ≠ none := by
  induction slots with
  | nil => exact Option.some_ne_none _
  | cons q qs ih =>
    rw [scanDir]
    cases hcheck : checkSlot (img.slot q) target with
    | skip => exact ih
    | stop => exact Option.some_ne_none _
    | hit => exact Option.some_ne_none _
    | panic =>
      rw [checkSlot_eq hne ht] at hcheck
      split_ifs at hcheck

/-- Every entry that the scan would take lies behind a mark. -/
def OutOfReach (img : Image) (target : Bytes) (slots : List Slot) : Prop :=
  ∀ (i : Nat) (p : Slot), slots[i]? = some p → LiveEntry (img.slot p) →
    StartsWith target (img.slot p) →
      ∃ j < i, ∃ q, slots[j]? = some q ∧ EndMarker (img.slot q) ∧ ¬ Hidden (img.slot q)

/-- The scan finds nothing exactly then. -/
theorem scanDir_none_iff (slots : List Slot) :
    scanDir img target slots = some none ↔ OutOfReach img target slots := by
  induction slots with
  | nil => simp [scanDir, OutOfReach]
  | cons p ps ih =>
    -- the slots behind `p`, with their positions shifted
    have hshift : (¬ (EndMarker (img.slot p) ∧ ¬ Hidden (img.slot p))) →
        ¬ (LiveEntry (img.slot p) ∧ StartsWith target (img.slot p)) →
        (OutOfReach img target ps ↔ OutOfReach img target (p :: ps)) := by
      intro hmark hno
      constructor
      · intro h i q hq hlive hstart
        cases i with
        | zero =>
          obtain rfl : p = q := by simpa using hq
          exact absurd ⟨hlive, hstart⟩ hno
        | succ i =>
          obtain ⟨j, hj, r, hr, hrest⟩ := h i q (by simpa using hq) hlive hstart
          exact ⟨j + 1, by omega, r, by simpa using hr, hrest⟩
      · intro h i q hq hlive hstart
        obtain ⟨j, hj, r, hr, hrest⟩ := h (i + 1) q (by simpa using hq) hlive hstart
        cases j with
        | zero =>
          obtain rfl : p = r := by simpa using hr
          exact absurd hrest hmark
        | succ j => exact ⟨j, by omega, r, by simpa using hr, hrest⟩
    rw [scanDir, checkSlot_eq hne ht]
    by_cases hh : Hidden (img.slot p)
    · rw [if_pos hh]
      exact ih.trans (hshift (fun h => h.2 hh) fun h => h.1.1 hh)
    · rw [if_neg hh]
      by_cases hm : EndMarker (img.slot p)
      · rw [if_pos hm]
        refine iff_of_true rfl ?_
        intro i q hq hlive _
        cases i with
        | zero =>
          obtain rfl : p = q := by simpa using hq
          exact absurd hm hlive.2.1
        | succ i => exact ⟨0, by omega, p, rfl, hm, hh⟩
      · rw [if_neg hm]
        by_cases hhit : LiveEntry (img.slot p) ∧ StartsWith target (img.slot p)
        · rw [if_pos hhit]
          refine iff_of_false (by simp) ?_
          intro h
          obtain ⟨j, hj, -⟩ := h 0 p rfl hhit.1 hhit.2
          omega
        · rw [if_neg hhit]
          exact ih.trans (hshift (fun h => hm h.1) hhit)

/-- **The scan finds the slot with the name exactly when the name is unambiguous.** -/
theorem scanDir_eq_namedSlot_iff (slots : List Slot) :
    scanDir img target slots = some (namedSlot img target slots) ↔
      Unambiguous img target slots := by
  induction slots with
  | nil => simp [scanDir, namedSlot, Unambiguous]
  | cons p ps ih =>
    have hcheck := checkSlot_eq hne ht (img.slot p)
    by_cases hm : EndMarker (img.slot p)
    · rw [namedSlot, if_pos hm]
      -- nothing behind the marker is rightful, so the condition says that the scan finds nothing
      have hiff : Unambiguous img target (p :: ps) ↔ OutOfReach img target (p :: ps) := by
        refine forall_congr' fun i => forall_congr' fun q => forall_congr' fun _ =>
          forall_congr' fun _ => forall_congr' fun _ => ?_
        constructor
        · rintro (h | ⟨j, hj, h | h⟩)
          · exact absurd h (not_rightful_of_marker hm i)
          · exact absurd h (not_rightful_of_marker hm j)
          · exact ⟨j, hj, h⟩
        · rintro ⟨j, hj, h⟩
          exact .inr ⟨j, hj, .inr h⟩
      rw [hiff]
      exact scanDir_none_iff hne ht (p :: ps)
    · rw [namedSlot, if_neg hm, scanDir, hcheck]
      by_cases hhit : LiveEntry (img.slot p) ∧ StartsWith target (img.slot p)
      · rw [if_neg hhit.1.1, if_neg hm, if_pos hhit]
        by_cases hname : Named target (img.slot p)
        · rw [if_pos ⟨hhit.1, hname⟩]
          have hr : Rightful img target (p :: ps) 0 :=
            ⟨⟨p, rfl, hhit.1, hname⟩, fun j hj => absurd hj (Nat.not_lt_zero j)⟩
          refine iff_of_true rfl ?_
          intro i q _ _ _
          cases i with
          | zero => exact .inl hr
          | succ i => exact .inr ⟨0, by omega, .inl hr⟩
        · rw [if_neg fun h => hname h.2]
          refine iff_of_false ?_ ?_
          · -- what the rest of the directory offers has the name, and `p` does not
            intro h
            have hfound : ∀ qs : List Slot, namedSlot img target qs ≠ some p := by
              intro qs
              induction qs with
              | nil => exact fun h => nomatch h
              | cons q qs ihq =>
                rw [namedSlot]
                split_ifs with h₁ h₂
                · exact fun h => nomatch h
                · intro h
                  exact hname (Option.some.inj h ▸ h₂.2)
                · exact ihq
            exact hfound ps (Option.some.inj h).symm
          · intro h
            rcases h 0 p rfl hhit.1 hhit.2 with ⟨⟨q, hq, -, hqn⟩, -⟩ | ⟨j, hj, -⟩
            · obtain rfl : p = q := by simpa using hq
              exact hname hqn
            · omega
      · have hskip : (if Hidden (img.slot p) then SlotVerdict.skip else
            if EndMarker (img.slot p) then .stop
            else if LiveEntry (img.slot p) ∧ StartsWith target (img.slot p) then .hit else .skip) =
            .skip := by
          rw [if_neg hm, if_neg hhit, ite_self]
        rw [hskip, if_neg fun h => hhit ⟨h.1, h.2.startsWith⟩, unambiguous_cons hm hhit]
        exact ih

end Comparison

/-! ## Operations on the slot found -/

section Operations

variable {vol : FatVolume} {path : Bytes}

theorem withEntry_some {α : Type} {p : Slot} (f : Nat → Nat → DevOp Disk α)
    (h : vol.findEntryInDir c target d = .ok (some p) d) :
    withEntry vol c target f d = f p.1 p.2 d := by
  rw [withEntry, Op.bind_ok h]

theorem withEntry_none {α : Type} (f : Nat → Nat → DevOp Disk α)
    (h : vol.findEntryInDir c target d = .ok none d) :
    withEntry vol c target f d = .err .noFile d := by
  rw [withEntry, Op.bind_ok h]
  rfl

/-- The operations that take a path, on the slot `p` of its last component. -/
def ActOnSlot (vol : FatVolume) (d : Disk) (path : Bytes) (p : Slot) : Prop :=
  fStat (some vol) path d = statAt vol p.1 p.2 d ∧
  fUnlink (some vol) path d = unlinkAt vol p.1 p.2 d ∧
  (∀ newPath, fRename (some vol) path newPath d = renameAt vol newPath p.1 p.2 d) ∧
  (∀ attrs, fChmod (some vol) path attrs d = updateSlot vol
    (fun buf off => buf.set (off + 0x0B) (UInt8.ofNat (attrs &&& (0xFF - ATTR_LFN)))) p.1 p.2 d) ∧
  (∀ time date, fUtime (some vol) path time date d = updateSlot vol
    (fun buf off => (buf.store (off + 0x16) (bytes16 time)).store (off + 0x18) (bytes16 date))
      p.1 p.2 d) ∧
  ∀ flags, fOpen (some vol) path flags d = openExisting vol flags p.1 p.2 d

/-- The operations that take a path, when its last component is not found in directory `c`. -/
def ActOnNothing (vol : FatVolume) (d : Disk) (path : Bytes) (c : Nat) (target : Bytes) : Prop :=
  fStat (some vol) path d = .err .noFile d ∧
  fUnlink (some vol) path d = .err .noFile d ∧
  (∀ newPath, fRename (some vol) path newPath d = .err .noFile d) ∧
  (∀ attrs, fChmod (some vol) path attrs d = .err .noFile d) ∧
  (∀ time date, fUtime (some vol) path time date d = .err .noFile d) ∧
  ∀ flags, fOpen (some vol) path flags d = openMissing vol flags c target d

theorem actOnSlot_of_found {p : Slot} (hne : target ≠ [])
    (hpath : resolvePath vol path d = .ok (c, target) d)
    (h : vol.findEntryInDir c target d = .ok (some p) d) : ActOnSlot vol d path p := by
  refine ⟨?_, ?_, ?_, ?_, ?_, ?_⟩
  · rw [fStat, withVol, Op.bind_ok hpath]
    simp only [if_neg hne]
    exact withEntry_some _ h
  · rw [fUnlink, withVol, Op.bind_ok hpath]
    simp only [if_neg hne]
    exact withEntry_some _ h
  · intro newPath
    rw [fRename, withVol, Op.bind_ok hpath]
    exact withEntry_some _ h
  · intro attrs
    rw [fChmod, withVol, Op.bind_ok hpath]
    exact withEntry_some _ h
  · intro time date
    rw [fUtime, withVol, Op.bind_ok hpath]
    exact withEntry_some _ h
  · intro flags
    rw [fOpen, withVol, openVol, Op.bind_ok hpath]
    exact Op.bind_ok h

theorem actOnNothing_of_missing (hne : target ≠ [])
    (hpath : resolvePath vol path d = .ok (c, target) d)
    (h : vol.findEntryInDir c target d = .ok none d) : ActOnNothing vol d path c target := by
  refine ⟨?_, ?_, ?_, ?_, ?_, ?_⟩
  · rw [fStat, withVol, Op.bind_ok hpath]
    simp only [if_neg hne]
    exact withEntry_none _ h
  · rw [fUnlink, withVol, Op.bind_ok hpath]
    simp only [if_neg hne]
    exact withEntry_none _ h
  · intro newPath
    rw [fRename, withVol, Op.bind_ok hpath]
    exact withEntry_none _ h
  · intro attrs
    rw [fChmod, withVol, Op.bind_ok hpath]
    exact withEntry_none _ h
  · intro time date
    rw [fUtime, withVol, Op.bind_ok hpath]
    exact withEntry_none _ h
  · intro flags
    rw [fOpen, withVol, openVol, Op.bind_ok hpath]
    exact Op.bind_ok h

/-- **Lookup is exact on unambiguous names, and only there.** The lookup of a name in a directory
returns the slot that carries it, or nothing when there is none, exactly when the name is
unambiguous; the operations on a path that ends with it then work on that slot. -/
theorem lookup_exact (vol : FatVolume) (d : Disk) (c : Nat) (l : List Nat) (target : Bytes)
    (hg : Geometry vol) (hl : (view vol d).Chain vol c l) (hne : target ≠ [])
    (ht : (0 : UInt8) ∉ target) : (vol.findEntryInDir c target d =
        .ok (namedSlot (view vol d) target (vol.dirSlots l)) d ↔
      Unambiguous (view vol d) target (vol.dirSlots l)) ∧
    (Unambiguous (view vol d) target (vol.dirSlots l) → ∀ path,
      resolvePath vol path d = .ok (c, target) d →
        match namedSlot (view vol d) target (vol.dirSlots l) with
        | some p => ActOnSlot vol d path p
        | none => ActOnNothing vol d path c target) := by
  have hfind := findEntryInDir_eq hg rfl hl target
  have hiff : scanDir (view vol d) target (vol.dirSlots l) =
      some (namedSlot (view vol d) target (vol.dirSlots l)) ↔ _ :=
    scanDir_eq_namedSlot_iff hne ht (vol.dirSlots l)
  have hexact : vol.findEntryInDir c target d =
        .ok (namedSlot (view vol d) target (vol.dirSlots l)) d ↔
      Unambiguous (view vol d) target (vol.dirSlots l) := by
    rw [← hiff, hfind]
    cases scanDir (view vol d) target (vol.dirSlots l) with
    | none => exact iff_of_false (fun h => nomatch h) fun h => nomatch h
    | some r =>
      constructor
      · intro h
        injection h with h
        rw [h]
      · intro h
        rw [← Option.some.inj h]
        rfl
  refine ⟨hexact, ?_⟩
  intro hu path hpath
  have hfound := hexact.mpr hu
  cases hslot : namedSlot (view vol d) target (vol.dirSlots l) with
  | some p => exact actOnSlot_of_found hne hpath (hslot ▸ hfound)
  | none => exact actOnNothing_of_missing hne hpath (hslot ▸ hfound)

end Operations

/-! ## A volume with an ambiguous name -/

/-- One sector per cluster, one table of one sector: cluster `c` is sector `c`. -/
def tinyVol : FatVolume where
  sectorsPerCluster := 1
  reservedSectors := 1
  numFats := 1
  sectorsPerFat := 1
  rootCluster := 2
  dataRegionLba := 2
  fatRegionLba := 1

/-- The bytes of a slot. -/
def slotBytes (name : Bytes) (attr start size : Nat) : Bytes :=
  name ++ UInt8.ofNat attr :: replicate 8 0 ++ bytes16 (start / 65536) ++ replicate 4 0 ++
    bytes16 (start % 65536) ++ bytes32 size

/-- A sector that starts with the bytes given. -/
def sectorOf (bytes : Bytes) : Sector := Sector.ofBuf fun i => bytes.getD i 0

/-- The slot of a file. -/
def fileSlot (name : Bytes) (start size : Nat) : Bytes :=
  slotBytes (encodeName name) ATTR_ARCHIVE start size

/-- The slot of a directory. -/
def dirSlot (name : Bytes) (start : Nat) : Bytes :=
  slotBytes (encodeName name) ATTR_DIRECTORY start 0

/-- The first two slots of a directory in cluster `c`, which stands in the root directory. -/
def dotSlots (c : Nat) : Bytes :=
  slotBytes (0x2E :: replicate 10 0x20) ATTR_DIRECTORY c 0 ++
    slotBytes (0x2E :: 0x2E :: replicate 9 0x20) ATTR_DIRECTORY 0 0

/-- The device with a table in sector 1 and the sectors behind it. -/
def diskOf (table : List Nat) (sectors : List Bytes) : Disk := fun lba =>
  sectorOf (([] :: table.flatMap bytes32 :: sectors).getD lba [])

/-- A root directory with a deleted slot, the file `AB`, the directory `A` and the file `F`; the
directory holds a file `G`, and the data of `AB` looks like a slot named `G`. -/
def sampleDisk : Disk := diskOf (0x0FFFFFF8 :: replicate 6 0x0FFFFFFF)
  [0xE5 :: replicate 31 0 ++ fileSlot [0x41, 0x42] 3 32 ++ dirSlot [0x41] 4 ++ fileSlot [0x46] 5 1,
    fileSlot [0x47] 5 1, dotSlots 4 ++ fileSlot [0x47] 6 1]

theorem tiny_geometry : Geometry tinyVol := by constructor <;> decide

theorem sample_root_chain : (view tinyVol sampleDisk).Chain tinyVol 2 [2] :=
  by decide +kernel

/-- The file `F` is found, and every operation on `/F` works on its slot. -/
theorem lookup_exact_sample : tinyVol.findEntryInDir 2 [0x46] sampleDisk =
      .ok (some (2, 3)) sampleDisk ∧ ActOnSlot tinyVol sampleDisk [0x2F, 0x46] (2, 3) := by
  have hslot : namedSlot (view tinyVol sampleDisk) [0x46] (tinyVol.dirSlots [2]) =
      some (2, 3) := by decide +kernel
  have hu : Unambiguous (view tinyVol sampleDisk) [0x46] (tinyVol.dirSlots [2]) :=
    (scanDir_eq_namedSlot_iff (by decide) (by decide) _).mp (by decide +kernel)
  have h := lookup_exact tinyVol sampleDisk 2 [2] [0x46] tiny_geometry sample_root_chain
    (by decide) (by decide)
  rw [hslot] at h
  exact ⟨h.1.mpr hu, h.2 hu [0x2F, 0x46] rfl⟩

/-- The lookup of `A` returns the slot of the file `AB`, whose name only starts with it, and
`f_unlink` of `/A` works there, although an entry of its own has the name `A`. -/
theorem longer_name_taken : Geometry tinyVol ∧ (view tinyVol sampleDisk).Chain tinyVol 2 [2] ∧
    tinyVol.findEntryInDir 2 [0x41] sampleDisk =
      .ok (some (2, 1)) sampleDisk ∧
    decodedName ((view tinyVol sampleDisk).slot (2, 1)) = [0x41, 0x42] ∧
    namedSlot (view tinyVol sampleDisk) [0x41] (tinyVol.dirSlots [2]) = some (2, 2) ∧
    fUnlink (some tinyVol) [0x2F, 0x41] sampleDisk = unlinkAt tinyVol 2 1 sampleDisk := by
  have hscan : scanDir (view tinyVol sampleDisk) [0x41] (tinyVol.dirSlots [2]) =
      some (some (2, 1)) := by decide +kernel
  have hfind : tinyVol.findEntryInDir 2 [0x41] sampleDisk = .ok (some (2, 1)) sampleDisk := by
    rw [findEntryInDir_eq tiny_geometry rfl sample_root_chain, hscan]
    rfl
  refine ⟨tiny_geometry, sample_root_chain, hfind, by decide +kernel, by decide +kernel, ?_⟩
  have hact : ActOnSlot tinyVol sampleDisk [0x2F, 0x41] (2, 1) :=
    actOnSlot_of_found (by decide) rfl hfind
  exact hact.2.1

end PlanckOS.Fat32
