import PlanckOS.Fat32.Browse
import PlanckOS.Fat32.Lookup
import PlanckOS.Fat32.Raw

/-!
# Enumerating a directory

`f_readdir` keeps a cluster, the index of a slot there and a flag between its calls. What a handle
has still to return is a matter of the slots in front of it (`DirOn`): `fReaddir_on` says that a
call returns the first name among them that the pattern accepts, and `readdirs_on` that any number
of calls answer with the names of `slotNames`, each once and in their order, and with false from
then on.

The chain is the one that the driver reads (`ChainOn`), on a device with any content. The only thing
that can go wrong is the pattern: `match_pattern` looks behind the 13 bytes of a name when the
pattern has NUL bytes behind a `*` (`nul_pattern_panics`). `readdir_enumerates` says when it does
not.
-/

set_option autoImplicit false

namespace PlanckOS.Fat32

open Lib.Fallible Lib.Loop FatVolume List

variable {ps : List Slot} {e : Entry} {p : Slot} {d d' : Disk} {c n : Nat}

/-! ## The names in a list of slots -/

/-- The names of the slots in front of the first one that starts with `0x00`, without deleted slots,
slots with the volume bit and slots without a name. -/
def slotNames (entries : List Entry) : List Bytes :=
  ((entries.takeWhile fun e => e 0 ≠ 0).filter fun e =>
    e 0 ≠ 0xE5 ∧ attrOf e &&& ATTR_VOLUME = 0).filterMap readDirEntryName

/-- What `f_readdir` makes of a slot. -/
inductive ReadVerdict where
  | stop
  | skip
  | hit (name : Bytes)
  | panic
  deriving DecidableEq, Repr

/-- The verdict, given what the pattern says of a name. -/
def readVerdict (select : Bytes → Option Bool) (e : Entry) : ReadVerdict :=
  if e 0 = 0 then .stop
  else if e 0 ≠ 0xE5 ∧ attrOf e &&& ATTR_VOLUME = 0 then
    match readDirEntryName e with
    | none => .skip
    | some name =>
        match select name with
        | none => .panic
        | some true => .hit name
        | some false => .skip
  else .skip

/-- The first name that is selected, and the slots behind it; `none` is a panic of the selection. -/
def nextMatch (img : Image) (select : Bytes → Option Bool) :
    List Slot → Option (Option (Bytes × List Slot))
  | [] => some none
  | p :: ps =>
      match readVerdict select (img.slot p) with
      | .stop => some none
      | .skip => nextMatch img select ps
      | .hit name => some (some (name, ps))
      | .panic => none

section Names

variable {img : Image} {select : Bytes → Option Bool}

theorem slotNames_stop (h : e 0 = 0) (es : List Entry) : slotNames (e :: es) = [] := by
  rw [slotNames, takeWhile_cons_of_neg (by simpa using h)]
  rfl

theorem slotNames_skip (h : e 0 ≠ 0)
    (hskip : ¬ (e 0 ≠ 0xE5 ∧ attrOf e &&& ATTR_VOLUME = 0)) (es : List Entry) :
    slotNames (e :: es) = slotNames es := by
  rw [slotNames, takeWhile_cons_of_pos (by simpa using h),
    filter_cons_of_neg (by simpa using hskip)]
  rfl

theorem slotNames_cons (h : e 0 ≠ 0) (hkeep : e 0 ≠ 0xE5 ∧ attrOf e &&& ATTR_VOLUME = 0)
    (es : List Entry) : slotNames (e :: es) =
      (readDirEntryName e).elim (slotNames es) fun name => name :: slotNames es := by
  rw [slotNames, takeWhile_cons_of_pos (by simpa using h),
    filter_cons_of_pos (by simpa using hkeep)]
  cases hname : readDirEntryName e with
  | none => rw [filterMap_cons_none hname]; rfl
  | some name => rw [filterMap_cons_some hname]; rfl

/-- How a search ends, in terms of the names: the names that it passes are not selected. -/
def MatchedAmong (img : Image) (select : Bytes → Option Bool) (ps : List Slot) :
    Option (Option (Bytes × List Slot)) → Prop
  | none => ∃ name ∈ slotNames (ps.map img.slot), select name = none
  | some none => ∀ name ∈ slotNames (ps.map img.slot), select name = some false
  | some (some (name, rest)) => select name = some true ∧ rest.length < ps.length ∧
      ∃ before, (∀ other ∈ before, select other = some false) ∧
        slotNames (ps.map img.slot) = before ++ name :: slotNames (rest.map img.slot)

/-- A slot that is passed. -/
theorem MatchedAmong.skip {r : Option (Option (Bytes × List Slot))}
    (h : MatchedAmong img select ps r) {passed : List Bytes}
    (hpassed : ∀ name ∈ passed, select name = some false)
    (hnames : slotNames ((p :: ps).map img.slot) = passed ++ slotNames (ps.map img.slot)) :
    MatchedAmong img select (p :: ps) r := by
  rcases r with _ | _ | ⟨name, rest⟩
  · obtain ⟨name, hmem, hnone⟩ := h
    exact ⟨name, hnames ▸ mem_append_right _ hmem, hnone⟩
  · intro name hmem
    rw [hnames] at hmem
    rcases mem_append.mp hmem with hmem | hmem
    · exact hpassed name hmem
    · exact h name hmem
  · obtain ⟨htrue, hlen, before, hbefore, heq⟩ := h
    refine ⟨htrue, hlen.trans (Nat.lt_succ_self _), passed ++ before, ?_, ?_⟩
    · intro other hmem
      rcases mem_append.mp hmem with hmem | hmem
      · exact hpassed other hmem
      · exact hbefore other hmem
    · rw [hnames, heq, append_assoc]

/-- **The search and the list of names.** -/
theorem nextMatch_spec (img : Image) (select : Bytes → Option Bool) (ps : List Slot) :
    MatchedAmong img select ps (nextMatch img select ps) := by
  -- along the slots, in the order of the tests of `f_readdir`: the end marker, a deleted slot or a
  -- label, a name that cannot be decoded, and last the pattern
  induction ps with
  | nil =>
    intro name hmem
    cases hmem
  | cons p ps ih =>
    have hnone : ∀ name ∈ ([] : List Bytes), select name = some false :=
      fun name hmem => absurd hmem not_mem_nil
    rw [nextMatch, readVerdict]
    by_cases hstop : img.slot p 0 = 0
    · rw [if_pos hstop]
      intro name hmem
      rw [map_cons, slotNames_stop hstop] at hmem
      cases hmem
    rw [if_neg hstop]
    by_cases hkeep : img.slot p 0 ≠ 0xE5 ∧ attrOf (img.slot p) &&& ATTR_VOLUME = 0
    · have hcons := slotNames_cons hstop hkeep (ps.map img.slot)
      rw [if_pos hkeep]
      cases hname : readDirEntryName (img.slot p) with
      | none =>
        rw [hname] at hcons
        exact ih.skip hnone hcons
      | some name =>
        rw [hname] at hcons
        have hfirst : name ∈ slotNames ((p :: ps).map img.slot) := by
          rw [map_cons, hcons]
          exact mem_cons_self
        simp only
        cases hselect : select name with
        | none => exact ⟨name, hfirst, hselect⟩
        | some b =>
          cases b with
          | true =>
            exact ⟨hselect, Nat.lt_succ_self _, [], hnone, hcons⟩
          | false =>
            have hpassed : ∀ other ∈ [name], select other = some false :=
              fun other hmem => mem_singleton.mp hmem ▸ hselect
            exact ih.skip hpassed hcons
    · rw [if_neg hkeep]
      exact ih.skip hnone (slotNames_skip hstop hkeep _)

end Names

/-! ## The place of a directory handle -/

/-- The content of the device as the driver reads it, for every cluster number. -/
def FatVolume.imageOn (vol : FatVolume) (d : Disk) : Image := ⟨vol.nextOn d, vol.clusterOn d⟩

/-- The slots that a handle on the directory at `c` has before it. -/
inductive DirOn (vol : FatVolume) (d : Disk) (c : Nat) (dir : Dir) : List Slot → Prop
  | ended (h : dir.ended = true) : DirOn vol d c dir []
  | within {front rest : List Nat} (h : dir.ended = false)
      (hl : vol.ChainOn d c (front ++ dir.currentCluster :: rest))
      (hi : dir.entryIndex ≤ vol.slotsPerCluster) :
      DirOn vol d c dir
        ((vol.clusterSlots dir.currentCluster).drop dir.entryIndex ++ vol.dirSlots rest)

/-- The place of a handle: a cluster and the index of a slot there. -/
def Dir.place (dir : Dir) : Slot := (dir.currentCluster, dir.entryIndex)

/-- The slot that is read at a place: behind the last slot of a cluster the first one of the next.
-/
def FatVolume.slotAt (vol : FatVolume) (d : Disk) (p : Slot) : Slot :=
  if vol.slotsPerCluster ≤ p.2 then (vol.nextOn d p.1, 0) else p

/-- The place behind that slot. -/
def FatVolume.behind (vol : FatVolume) (d : Disk) (p : Slot) : Slot :=
  ((vol.slotAt d p).1, (vol.slotAt d p).2 + 1)

/-- What the pattern of a handle says of a name. -/
def Dir.select (dir : Dir) (name : Bytes) : Option Bool :=
  matchPattern name dir.pattern dir.patLen

section Place

variable {vol : FatVolume} {l : List Nat} {dir : Dir}

theorem onDev_ok {α : Type} {x : DevOp Disk α} {a : α} (h : x d = .ok a d') (dir : Dir) :
    onDev x ⟨d, dir⟩ = .ok a ⟨d', dir⟩ := by
  rw [onDev, h]

@[simp] theorem getDir_run (s : OpenDir Disk) : getDir s = .ok s.dir s := rfl

@[simp] theorem updateDir_run (g : Dir → Dir) (s : OpenDir Disk) :
    updateDir g s = .ok () { s with dir := g s.dir } := rfl

theorem clusterSlots_length (vol : FatVolume) (a : Nat) :
    (vol.clusterSlots a).length = vol.slotsPerCluster := by
  rw [clusterSlots, length_map, length_range']

theorem clusterSlots_drop {a i : Nat} (hi : i < vol.slotsPerCluster) :
    (vol.clusterSlots a).drop i = (a, i) :: (vol.clusterSlots a).drop (i + 1) := by
  rw [drop_eq_getElem_cons (by rwa [clusterSlots_length])]
  congr 1
  simp [clusterSlots]

theorem clusterSlots_drop_all (a : Nat) : (vol.clusterSlots a).drop vol.slotsPerCluster = [] := by
  rw [drop_eq_nil_iff, clusterSlots_length]

variable (hpos : 0 < vol.slotsPerCluster) (hslots : vol.slotsPerCluster < 2 ^ 16)

include hpos in
theorem clusterSlots_cons (a : Nat) :
    vol.clusterSlots a = (a, 0) :: (vol.clusterSlots a).drop 1 := clusterSlots_drop hpos

theorem dirSlots_cons (vol : FatVolume) (a : Nat) (l : List Nat) :
    vol.dirSlots (a :: l) = vol.clusterSlots a ++ vol.dirSlots l := flatMap_cons

theorem dirSlots_length (vol : FatVolume) (l : List Nat) :
    (vol.dirSlots l).length = l.length * vol.slotsPerCluster := by
  induction l with
  | nil => rw [dirSlots, flatMap_nil, length_nil, length_nil, Nat.zero_mul]
  | cons a l ih =>
    rw [dirSlots_cons, length_append, ih, clusterSlots_length, length_cons, Nat.succ_mul,
      Nat.add_comm]

/-- A handle at the first slot of a chain. -/
theorem DirOn.first (hl : vol.ChainOn d c l) (hopen : dir.ended = false)
    (hcur : dir.currentCluster = c) (hidx : dir.entryIndex = 0) :
    DirOn vol d c dir (vol.dirSlots l) := by
  obtain ⟨rest, rfl⟩ := hl.eq_cons
  subst hcur
  have hsplit : vol.ChainOn d dir.currentCluster ([] ++ dir.currentCluster :: rest) := hl
  have h := DirOn.within hopen hsplit (hidx ▸ Nat.zero_le _)
  rwa [hidx, drop_zero, ← dirSlots_cons] at h

include hslots in
/-- There are less slots than the bound of the loops over them. -/
theorem DirOn.length_lt (h : DirOn vol d c dir ps) : ps.length < LOOP_BOUND := by
  rw [LOOP_BOUND]
  cases h with
  | ended _ => exact Nat.pow_pos (by decide)
  | @within front rest _ hl _ =>
    have hlen := hl.length_le
    rw [length_append, length_cons, END_MARK] at hlen
    have hprod : (rest.length + 1) * vol.slotsPerCluster ≤ 0x0FFFFFF8 * 2 ^ 16 :=
      Nat.mul_le_mul (by omega) hslots.le
    rw [Nat.succ_mul] at hprod
    rw [length_append, length_drop, clusterSlots_length, dirSlots_length]
    omega

/-- How a round ends, given the verdict on its slot. -/
def roundOutcome (d : Disk) (dir : Dir) :
    ReadVerdict → Outcome (OpenDir Disk) FError (Flow Unit (Option Bytes))
  | .stop => .ok (.done none) ⟨d, { dir with ended := true }⟩
  | .skip => .ok (.next ()) ⟨d, dir⟩
  | .hit name => .ok (.done (some name)) ⟨d, dir⟩
  | .panic => .fault .panic

theorem readdirEntry_eq (dir : Dir) (e : Entry) (s : OpenDir Disk) :
    readdirEntry dir e s = roundOutcome s.dev s.dir (readVerdict dir.select e) := by
  -- the attribute of a long name has the volume bit
  have hskip : (e 0 = 0xE5 ∨ attrOf e = ATTR_LFN ∨ attrOf e &&& ATTR_VOLUME ≠ 0) ↔
      ¬ (e 0 ≠ 0xE5 ∧ attrOf e &&& ATTR_VOLUME = 0) := by
    have hlfn : attrOf e = ATTR_LFN → attrOf e &&& ATTR_VOLUME ≠ 0 := by
      intro h
      rw [h]
      decide
    tauto
  rw [readdirEntry, readVerdict]
  by_cases hm : e 0 = 0
  · rw [if_pos hm, if_pos hm]
    rfl
  rw [if_neg hm, if_neg hm]
  by_cases hkeep : e 0 ≠ 0xE5 ∧ attrOf e &&& ATTR_VOLUME = 0
  · rw [if_neg fun h => hskip.mp h hkeep, if_pos hkeep]
    cases readDirEntryName e with
    | none => rfl
    | some name =>
      simp only [Dir.select]
      cases matchPattern name dir.pattern dir.patLen with
      | none => rfl
      | some b => cases b <;> rfl
  · rw [if_pos (hskip.mpr hkeep), if_neg hkeep]
    rfl

include hpos hslots in
/-- A round that reads a slot. -/
theorem readdirStep_slot (hopen : dir.ended = false) (hgoes : vol.slotsPerCluster ≤ dir.entryIndex →
      ¬ END_MARK ≤ vol.nextOn d dir.currentCluster) :
    ∃ dir', dir'.ended = false ∧ dir'.place = vol.behind d dir.place ∧ dir'.select = dir.select ∧
      readdirStep vol () ⟨d, dir⟩ = roundOutcome d dir'
        (readVerdict dir.select ((vol.imageOn d).slot (vol.slotAt d dir.place))) := by
  obtain ⟨dir₁, hrun, hopen₁, hplace, hselect, hlt⟩ : ∃ dir₁,
      nextDirCluster vol ⟨d, dir⟩ = .ok true ⟨d, dir₁⟩ ∧ dir₁.ended = false ∧
      dir₁.place = vol.slotAt d dir.place ∧ dir₁.select = dir.select ∧
      dir₁.entryIndex < vol.slotsPerCluster := by
    rw [nextDirCluster, Op.bind_ok (getDir_run _)]
    by_cases hlast : vol.slotsPerCluster ≤ dir.entryIndex
    · refine ⟨{ dir with entryIndex := 0, sectorInCluster := 0
                         currentCluster := vol.nextOn d dir.currentCluster },
        ?_, hopen, ?_, rfl, hpos⟩
      · simp only [if_pos hlast]
        refine (Op.bind_ok (updateDir_run _ _)).trans ?_
        refine (Op.bind_ok (onDev_ok readFatEntry_run _)).trans ?_
        rw [if_neg (hgoes hlast)]
        rfl
      · exact (if_pos hlast).symm
    · refine ⟨dir, ?_, hopen, (if_neg hlast).symm, rfl, Nat.not_le.mp hlast⟩
      simp only [if_neg hlast]
      rfl
  refine ⟨{ dir₁ with entryIndex := dir₁.entryIndex + 1 }, hopen₁, ?_, hselect, ?_⟩
  · rw [behind, ← hplace]
    rfl
  have hmod : (dir₁.entryIndex + 1) % 2 ^ 16 = dir₁.entryIndex + 1 := by omega
  rw [readdirStep, Op.bind_ok (getDir_run _)]
  simp only [hopen, Bool.false_eq_true, if_false]
  rw [Op.bind_ok hrun]
  simp only [if_true]
  refine (Op.bind_ok (getDir_run _)).trans ?_
  refine (Op.bind_ok (onDev_ok readCluster_run _)).trans ?_
  refine (Op.bind_ok (updateDir_run _ _)).trans ?_
  simp only [hmod]
  rw [readdirEntry_eq, hselect, ← hplace]
  rfl

/-- A round behind the last slot. -/
theorem readdirStep_end (hopen : dir.ended = false) (hlast : vol.slotsPerCluster ≤ dir.entryIndex)
    (hend : END_MARK ≤ vol.nextOn d dir.currentCluster) : readdirStep vol () ⟨d, dir⟩ =
      .ok (.done none) ⟨d, { dir with entryIndex := 0, sectorInCluster := 0, ended := true }⟩ := by
  have hrun : nextDirCluster vol ⟨d, dir⟩ =
      .ok false ⟨d, { dir with entryIndex := 0, sectorInCluster := 0, ended := true }⟩ := by
    rw [nextDirCluster, Op.bind_ok (getDir_run _)]
    simp only [if_pos hlast]
    refine (Op.bind_ok (updateDir_run _ _)).trans ?_
    refine (Op.bind_ok (onDev_ok readFatEntry_run _)).trans ?_
    rw [if_pos hend]
    rfl
  rw [readdirStep, Op.bind_ok (getDir_run _)]
  simp only [hopen, Bool.false_eq_true, if_false]
  rw [Op.bind_ok hrun]
  rfl

/-- A round with a handle that has come to the end. -/
theorem readdirStep_ended (hended : dir.ended = true) :
    readdirStep vol () ⟨d, dir⟩ = .ok (.done none) ⟨d, dir⟩ := by
  rw [readdirStep, Op.bind_ok (getDir_run _)]
  simp only [hended, if_true]
  rfl

include hpos in
/-- The first of the slots before a handle is the one that is read next. -/
theorem DirOn.first_slot (h : DirOn vol d c dir (p :: ps)) :
    dir.ended = false ∧ (vol.slotsPerCluster ≤ dir.entryIndex →
      ¬ END_MARK ≤ vol.nextOn d dir.currentCluster) ∧ vol.slotAt d dir.place = p ∧
      p.2 < vol.slotsPerCluster ∧ ∃ front rest, vol.ChainOn d c (front ++ p.1 :: rest) ∧
        ps = (vol.clusterSlots p.1).drop (p.2 + 1) ++ vol.dirSlots rest := by
  generalize hslots : p :: ps = slots at h
  cases h with
  | ended _ => cases hslots
  | @within front rest hopen hl hi =>
    by_cases hlast : vol.slotsPerCluster ≤ dir.entryIndex
    · -- the next slot is the first one of the next cluster
      obtain hi : dir.entryIndex = vol.slotsPerCluster := le_antisymm hi hlast
      rw [hi, clusterSlots_drop_all, nil_append] at hslots
      have hrest : rest ≠ [] := by
        rintro rfl
        cases hslots
      have htail := hl.tail_of_split hrest
      obtain ⟨rest', rfl⟩ := htail.eq_cons
      rw [dirSlots_cons, clusterSlots_cons hpos] at hslots
      obtain ⟨rfl, rfl⟩ := cons.inj hslots
      refine ⟨hopen, fun _ => Nat.not_le.mpr htail.head_valid, if_pos hlast, hpos,
        front ++ [dir.currentCluster], rest', ?_, rfl⟩
      rw [append_assoc]
      exact hl
    · rw [clusterSlots_drop (Nat.not_le.mp hlast)] at hslots
      obtain ⟨rfl, rfl⟩ := cons.inj hslots
      exact ⟨hopen, fun h => absurd h hlast, if_neg hlast, Nat.not_le.mp hlast, front, rest,
        hl, rfl⟩

include hpos hslots in
/-- **A round of `f_readdir`** reads the next slot. -/
theorem readdirStep_cons (h : DirOn vol d c dir (p :: ps)) :
    ∃ dir', DirOn vol d c dir' ps ∧ dir'.select = dir.select ∧
      readdirStep vol () ⟨d, dir⟩ =
        roundOutcome d dir' (readVerdict dir.select ((vol.imageOn d).slot p)) := by
  obtain ⟨hopen, hgoes, hslot, hlt, front, rest, hl, rfl⟩ := h.first_slot hpos
  obtain ⟨dir', hopen', hplace, hselect, hrun⟩ := readdirStep_slot hpos hslots hopen hgoes
  rw [behind, hslot] at hplace
  rw [hslot] at hrun
  obtain ⟨hcur, hidx⟩ := Prod.mk.inj hplace
  have hat : DirOn vol d c dir'
      ((vol.clusterSlots dir'.currentCluster).drop dir'.entryIndex ++ vol.dirSlots rest) :=
    .within hopen' (hcur ▸ hl) (hidx ▸ hlt)
  rw [hcur, hidx] at hat
  exact ⟨dir', hat, hselect, hrun⟩

include hpos in
/-- A round at the end of the directory. -/
theorem readdirStep_nil (h : DirOn vol d c dir []) :
    ∃ dir', readdirStep vol () ⟨d, dir⟩ = .ok (.done none) ⟨d, dir'⟩ ∧
      dir'.ended = true ∧ dir'.select = dir.select := by
  generalize hslots : ([] : List Slot) = slots at h
  cases h with
  | ended hended => exact ⟨dir, readdirStep_ended hended, hended, rfl⟩
  | @within front rest hopen hl hi =>
    obtain ⟨hdrop, hrest⟩ := append_eq_nil_iff.mp hslots.symm
    have hlast : vol.slotsPerCluster ≤ dir.entryIndex := by
      by_contra hlt
      rw [clusterSlots_drop (Nat.not_le.mp hlt)] at hdrop
      cases hdrop
    have hnil : rest = [] := by
      cases rest with
      | nil => rfl
      | cons a rest =>
        rw [dirSlots_cons, clusterSlots_cons hpos] at hrest
        cases hrest
    subst hnil
    exact ⟨_, readdirStep_end hopen hlast hl.stop_of_last, rfl, rfl⟩

end Place

/-! ## Calls of `f_readdir` -/

/-- How a call ends, given the search among the slots before the handle. -/
def ReadsMatch (vol : FatVolume) (d : Disk) (c : Nat) (select : Bytes → Option Bool)
    (r : Option (Option (Bytes × List Slot)))
    (o : Outcome (OpenDir Disk) FError (Option Bytes)) : Prop :=
  match r with
  | none => o = .fault .panic
  | some none => ∃ dir', o = .ok none ⟨d, dir'⟩ ∧ dir'.ended = true ∧ dir'.select = select
  | some (some (name, ps)) => ∃ dir', o = .ok (some name) ⟨d, dir'⟩ ∧ DirOn vol d c dir' ps ∧
      dir'.select = select

/-- `n` calls of `f_readdir` and their answers. -/
def readdirs (vol : Option FatVolume) : Nat → DirOp Disk (List (Option Bytes))
  | 0 => pure []
  | n + 1 => do
      let answer ← fReaddir vol
      let rest ← readdirs vol n
      pure (answer :: rest)

/-- One call of `f_readdir` of a caller that collects the names. -/
def listStep (vol : Option FatVolume) (names : List Bytes) :
    DirOp Disk (Flow (List Bytes) (List Bytes)) := do
  match ← fReaddir vol with
  | some name => pure (.next (names ++ [name]))
  | none => pure (.done names)

/-- Call `f_readdir` until it returns false. -/
def listDir (vol : Option FatVolume) : DirOp Disk (List Bytes) :=
  Op.loopM (listStep vol) LOOP_BOUND []

/-- The names that a handle with the slots `ps` before it returns. -/
def Dir.selected (dir : Dir) (img : Image) (ps : List Slot) : List Bytes :=
  (slotNames (ps.map img.slot)).filter fun name => dir.select name = some true

section Calls

variable {vol : FatVolume} {dir : Dir}

variable (hpos : 0 < vol.slotsPerCluster) (hslots : vol.slotsPerCluster < 2 ^ 16)

include hpos hslots in
/-- The loop of `f_readdir`. -/
theorem readdirLoop_on (h : DirOn vol d c dir ps) (hn : ps.length < n) :
    ReadsMatch vol d c dir.select (nextMatch (vol.imageOn d) dir.select ps)
      (Op.loopM (readdirStep vol) n () ⟨d, dir⟩) := by
  induction ps generalizing dir n with
  | nil =>
    obtain ⟨n, rfl⟩ : ∃ m, n = m + 1 := ⟨n - 1, by omega⟩
    obtain ⟨dir', hrun, hended, hselect⟩ := readdirStep_nil hpos h
    exact ⟨dir', Op.loopM_done hrun, hended, hselect⟩
  | cons p ps ih =>
    obtain ⟨n, rfl⟩ : ∃ m, n = m + 1 := ⟨n - 1, by omega⟩
    rw [length_cons] at hn
    obtain ⟨dir', hat, hselect, hrun⟩ := readdirStep_cons hpos hslots h
    rw [nextMatch]
    cases hverdict : readVerdict dir.select ((vol.imageOn d).slot p) with
    | stop =>
      rw [hverdict] at hrun
      exact ⟨_, Op.loopM_done hrun, rfl, hselect⟩
    | hit name =>
      rw [hverdict] at hrun
      exact ⟨dir', Op.loopM_done hrun, hat, hselect⟩
    | panic =>
      rw [hverdict] at hrun
      exact Op.loopM_fault hrun
    | skip =>
      rw [hverdict] at hrun
      rw [Op.loopM_next hrun, ← hselect]
      exact ih hat (by omega)

include hpos hslots in
/-- **`f_readdir`** returns the first selected name among the slots before the handle. -/
theorem fReaddir_on (h : DirOn vol d c dir ps) :
    ReadsMatch vol d c dir.select (nextMatch (vol.imageOn d) dir.select ps)
      (fReaddir (some vol) ⟨d, dir⟩) :=
  readdirLoop_on hpos hslots h (h.length_lt hslots)

include hpos hslots in
/-- The names still to come, call by call. -/
theorem fReaddir_selected (h : DirOn vol d c dir ps)
    (hpat : ∀ name ∈ slotNames (ps.map (vol.imageOn d).slot), dir.select name ≠ none) :
    ∃ dir' ps', fReaddir (some vol) ⟨d, dir⟩ =
        .ok (dir.selected (vol.imageOn d) ps).head? ⟨d, dir'⟩ ∧
      DirOn vol d c dir' ps' ∧ dir'.select = dir.select ∧
      dir.selected (vol.imageOn d) ps' = (dir.selected (vol.imageOn d) ps).tail ∧
      (∀ name ∈ slotNames (ps'.map (vol.imageOn d).slot), dir.select name ≠ none) := by
  have hcall := fReaddir_on hpos hslots h
  have hspec := nextMatch_spec (vol.imageOn d) dir.select ps
  rcases hr : nextMatch (vol.imageOn d) dir.select ps with _ | _ | ⟨name, rest⟩
  · -- the pattern match does not leave its buffers on these names
    rw [hr] at hspec
    obtain ⟨name, hmem, hnone⟩ := hspec
    exact absurd hnone (hpat name hmem)
  · rw [hr] at hspec hcall
    obtain ⟨dir', hrun, hended, hselect⟩ := hcall
    have hempty : dir.selected (vol.imageOn d) ps = [] := by
      rw [Dir.selected, filter_eq_nil_iff]
      intro name hmem
      rw [hspec name hmem]
      decide
    refine ⟨dir', [], ?_, .ended hended, hselect, ?_, ?_⟩
    · rw [hempty]
      exact hrun
    · rw [hempty]
      rfl
    · intro name hmem
      cases hmem
  · rw [hr] at hspec hcall
    obtain ⟨dir', hrun, hat, hselect⟩ := hcall
    obtain ⟨htrue, -, before, hbefore, hnames⟩ := hspec
    have hcons : dir.selected (vol.imageOn d) ps = name :: dir.selected (vol.imageOn d) rest := by
      have hnone : before.filter (fun name => dir.select name = some true) = [] := by
        rw [filter_eq_nil_iff]
        intro other hmem
        rw [hbefore other hmem]
        decide
      rw [Dir.selected, hnames, filter_append, hnone, nil_append,
        filter_cons_of_pos (by simpa using htrue)]
      rfl
    refine ⟨dir', rest, ?_, hat, hselect, ?_, ?_⟩
    · rw [hcons]
      exact hrun
    · rw [hcons]
      rfl
    · intro other hmem
      refine hpat other ?_
      rw [hnames]
      exact mem_append_right _ (mem_cons_of_mem _ hmem)

include hpos hslots in
/-- **Any number of calls** answers with the selected names, and with false behind them. -/
theorem readdirs_on (h : DirOn vol d c dir ps)
    (hpat : ∀ name ∈ slotNames (ps.map (vol.imageOn d).slot), dir.select name ≠ none) (n : Nat) :
    ∃ dir', readdirs (some vol) n ⟨d, dir⟩ =
      .ok ((range n).map fun i => (dir.selected (vol.imageOn d) ps)[i]?) ⟨d, dir'⟩ := by
  induction n generalizing dir ps with
  | zero => exact ⟨dir, rfl⟩
  | succ n ih =>
    obtain ⟨dir₁, ps₁, hrun, hat, hselect, htail, hpat₁⟩ := fReaddir_selected hpos hslots h hpat
    obtain ⟨dir', hrest⟩ := ih hat (hselect ▸ hpat₁)
    have hnames : dir₁.selected (vol.imageOn d) ps₁ = (dir.selected (vol.imageOn d) ps).tail := by
      rw [← htail, Dir.selected, Dir.selected, hselect]
    refine ⟨dir', ?_⟩
    rw [readdirs, Op.bind_ok hrun, Op.bind_ok hrest, hnames, range_succ_eq_map, map_cons,
      map_map, head?_eq_getElem?]
    simp only [Function.comp_def, getElem?_tail]
    rfl

include hpos hslots in
/-- A name on which the pattern panics is reached by some call. -/
theorem readdirs_panic (h : DirOn vol d c dir ps) {bad : Bytes}
    (hmem : bad ∈ slotNames (ps.map (vol.imageOn d).slot)) (hbad : dir.select bad = none) :
    ∃ n, readdirs (some vol) n ⟨d, dir⟩ = .fault .panic := by
  -- every call that returns a name leaves less slots
  induction hlen : ps.length using Nat.strong_induction_on generalizing dir ps with
  | _ len ih =>
    have hcall := fReaddir_on hpos hslots h
    have hspec := nextMatch_spec (vol.imageOn d) dir.select ps
    rcases hr : nextMatch (vol.imageOn d) dir.select ps with _ | _ | ⟨name, rest⟩
    · rw [hr] at hcall
      exact ⟨1, Op.bind_fault hcall⟩
    · rw [hr] at hspec
      rw [hspec bad hmem] at hbad
      cases hbad
    · rw [hr] at hspec hcall
      obtain ⟨dir', hrun, hat, hselect⟩ := hcall
      obtain ⟨htrue, hlt, before, hbefore, hnames⟩ := hspec
      have hrest : bad ∈ slotNames (rest.map (vol.imageOn d).slot) := by
        rw [hnames] at hmem
        rcases mem_append.mp hmem with hmem | hmem
        · rw [hbefore bad hmem] at hbad
          cases hbad
        · rcases mem_cons.mp hmem with rfl | hmem
          · rw [htrue] at hbad
            cases hbad
          · exact hmem
      obtain ⟨n, hn⟩ := ih rest.length (hlen ▸ hlt) hat hrest (hselect ▸ hbad) rfl
      refine ⟨n + 1, ?_⟩
      rw [readdirs, Op.bind_ok hrun]
      exact Op.bind_fault hn

include hpos hslots in
/-- **Reading a directory to its end** yields the selected names. -/
theorem listDir_on (h : DirOn vol d c dir ps)
    (hpat : ∀ name ∈ slotNames (ps.map (vol.imageOn d).slot), dir.select name ≠ none) :
    ∃ dir', listDir (some vol) ⟨d, dir⟩ = .ok (dir.selected (vol.imageOn d) ps) ⟨d, dir'⟩ := by
  -- every call takes a name off the list, so as many rounds as names and one more are enough
  suffices hloop : ∀ n (names : List Bytes) (dir : Dir) (ps : List Slot),
      (dir.selected (vol.imageOn d) ps).length < n → DirOn vol d c dir ps →
      (∀ name ∈ slotNames (ps.map (vol.imageOn d).slot), dir.select name ≠ none) →
      ∃ dir', Op.loopM (listStep (some vol)) n names ⟨d, dir⟩ =
        .ok (names ++ dir.selected (vol.imageOn d) ps) ⟨d, dir'⟩ by
    refine hloop _ [] dir ps ?_ h hpat
    have hlen : (dir.selected (vol.imageOn d) ps).length ≤ ps.length := by
      refine (length_filter_le _ _).trans ((length_filterMap_le _ _).trans ?_)
      refine (length_filter_le _ _).trans ?_
      exact (takeWhile_sublist _).length_le.trans (length_map _).le
    exact hlen.trans_lt (h.length_lt hslots)
  intro n
  induction n with
  | zero => exact fun _ _ _ hn => absurd hn (Nat.not_lt_zero _)
  | succ n ih =>
    intro names dir ps hn hat hpat
    obtain ⟨dir₁, ps₁, hrun, hat₁, hselect, htail, hpat₁⟩ := fReaddir_selected hpos hslots hat hpat
    have hnames : dir₁.selected (vol.imageOn d) ps₁ = (dir.selected (vol.imageOn d) ps).tail := by
      rw [← htail, Dir.selected, Dir.selected, hselect]
    rw [Op.loopM]
    show ∃ dir', Op.bind _ _ _ = _
    cases hr : dir.selected (vol.imageOn d) ps with
    | nil =>
      rw [hr] at hrun
      refine ⟨dir₁, ?_⟩
      rw [Op.bind, listStep, Op.bind_ok hrun, append_nil]
      rfl
    | cons name rest =>
      rw [hr] at hrun hnames hn
      obtain ⟨dir', hrest⟩ := ih (names ++ [name]) dir₁ ps₁
        (by rw [hnames]; exact Nat.lt_of_succ_lt_succ hn) hat₁ (hselect ▸ hpat₁)
      refine ⟨dir', ?_⟩
      rw [Op.bind, listStep, Op.bind_ok hrun]
      refine hrest.trans ?_
      rw [hnames, append_assoc]
      rfl

end Calls

/-! ## Patterns -/

section Patterns

variable {name pat : Bytes}

theorem matchStar_ne_none {rest : Nat → Option Bool} {fuel : Nat}
    (h : ∀ m ≤ n + fuel, rest m ≠ none) : matchStar name rest n fuel ≠ none := by
  induction fuel generalizing n with
  | zero => exact h n le_rfl
  | succ fuel ih =>
    have hfirst := h n (Nat.le_add_right _ _)
    rw [matchStar]
    split
    · split
      · exact ih fun m hm => h m (by omega)
      · exact hfirst
    · exact hfirst

/-- The NUL byte at the end of a name stops a pattern that has none. -/
theorem matchPatternInner_ne_none (hname : name[12]? = some 0) (hpat : (0 : UInt8) ∉ pat)
    (hn : n ≤ 12) : matchPatternInner name n pat ≠ none := by
  have hlen : 12 < name.length := (List.getElem?_eq_some_iff.mp hname).1
  induction pat generalizing n with
  | nil =>
    rw [matchPatternInner, getElem?_eq_getElem (by omega)]
    exact Option.some_ne_none _
  | cons c pat ih =>
    have hc : c ≠ 0 := fun h => hpat (h ▸ mem_cons_self)
    have hrest : (0 : UInt8) ∉ pat := fun h => hpat (mem_cons_of_mem _ h)
    have hbyte : name[n]? = some (name[n]) := getElem?_eq_getElem (by omega)
    -- a byte of the name that is not NUL is not the last one
    have hnext : name[n] ≠ 0 → n + 1 ≤ 12 := by
      intro hne
      rcases Nat.eq_or_lt_of_le hn with rfl | hlt
      · exact absurd (Option.some.inj (hbyte.symm.trans hname)) hne
      · exact hlt
    rw [matchPatternInner]
    split
    · exact matchStar_ne_none fun m hm => ih hrest (by omega)
    split
    · rw [hbyte]
      simp only
      split
      · exact Option.some_ne_none _
      next h => exact ih hrest (hnext fun h0 => h (.inl h0))
    · rw [hbyte]
      simp only
      split
      · exact Option.some_ne_none _
      next h => exact ih hrest (hnext fun h0 => hc ((not_not.mp h).symm.trans h0))

/-- A name that was read ends with a NUL byte. -/
theorem readDirEntryName_last (h : readDirEntryName e = some name) : name[12]? = some 0 := by
  have hlen := decodedName_length_le e
  rw [readDirEntryName] at h
  split at h
  · cases h
  · obtain rfl := Option.some.inj h
    rw [getElem?_append_right hlen, getElem?_replicate, if_pos (by omega)]

theorem slotNames_last {entries : List Entry} (h : name ∈ slotNames entries) :
    name[12]? = some 0 := by
  obtain ⟨e, -, he⟩ := mem_filterMap.mp h
  exact readDirEntryName_last he

/-- The pattern that `f_findfirst` keeps. -/
theorem fFindfirst_pattern {vol : FatVolume} {path pattern : Bytes} {dir : Dir}
    (h : fFindfirst (some vol) path pattern d = .ok dir d') :
    dir.pattern.take dir.patLen = pattern.take 11 := by
  have hsat : (fFindfirst (some vol) path pattern d).Sat
      (fun dir _ => dir.pattern.take dir.patLen = pattern.take 11) fun _ _ => True := by
    rw [fFindfirst]
    apply sat_bind
    cases (fOpendir (some vol) path : DevOp Disk Dir) d with
    | err e d₁ => trivial
    | fault w => trivial
    | ok dir₁ d₁ =>
      have htake : pattern.take (min pattern.length 11) = pattern.take 11 :=
        take_eq_take_iff.mpr (by omega)
      have hlen : (pattern.take 11).length = min pattern.length 11 := by
        rw [length_take, Nat.min_comm]
      show (pattern.take (min pattern.length 11) ++ dir₁.pattern.drop (min pattern.length 11)).take
        (min pattern.length 11) = pattern.take 11
      rw [htake, take_left' hlen]
  exact hsat.of_ok h

end Patterns

/-! ## The enumeration -/

/-- **`f_readdir` enumerates a directory.** A handle is at the first slot of a chain, on a device
with any content. Without a pattern any number of calls return the names of its slots, each once and
in their order, and false from then on. With a pattern they return the names that it matches,
exactly when `match_pattern` does not panic on one of the names; it never does for a pattern of
`f_findfirst` without NUL bytes. -/
theorem readdir_enumerates (vol : FatVolume) (d : Disk) (c : Nat) (l : List Nat) (dir : Dir)
    (hspc : 0 < vol.sectorsPerCluster) (hslots : vol.slotsPerCluster < 2 ^ 16)
    (hl : vol.ChainOn d c l) (hcur : dir.currentCluster = c) (hidx : dir.entryIndex = 0)
    (hopen : dir.ended = false) :
    (dir.patLen = 0 → ∀ n, ∃ dir', readdirs (some vol) n ⟨d, dir⟩ = .ok ((range n).map fun i =>
      (slotNames ((vol.dirSlots l).map (vol.imageOn d).slot))[i]?) ⟨d, dir'⟩) ∧
    ((∀ n, ∃ dir', readdirs (some vol) n ⟨d, dir⟩ = .ok ((range n).map fun i =>
        ((slotNames ((vol.dirSlots l).map (vol.imageOn d).slot)).filter fun name =>
          matchPattern name dir.pattern dir.patLen = some true)[i]?) ⟨d, dir'⟩) ↔
      ∀ name ∈ slotNames ((vol.dirSlots l).map (vol.imageOn d).slot),
        matchPattern name dir.pattern dir.patLen ≠ none) ∧
    ∀ path pattern d', fFindfirst (some vol) path pattern d = .ok dir d' → (0 : UInt8) ∉ pattern →
      ∀ name ∈ slotNames ((vol.dirSlots l).map (vol.imageOn d).slot),
        matchPattern name dir.pattern dir.patLen ≠ none := by
  have hpos : 0 < vol.slotsPerCluster := by
    rw [slotsPerCluster, clusterSize_eq, DIR_SIZE]
    omega
  have hat := DirOn.first hl hopen hcur hidx
  refine ⟨fun hnone n => ?_, ⟨fun hall name hmem hpanic => ?_, fun hpat n => ?_⟩, ?_⟩
  · -- without a pattern every name is selected
    have hall : ∀ name, dir.select name = some true := by
      intro name
      rw [Dir.select, matchPattern, if_pos hnone]
    obtain ⟨dir', hrun⟩ := readdirs_on hpos hslots hat (fun name _ => by rw [hall name]; decide) n
    have hselected : dir.selected (vol.imageOn d) (vol.dirSlots l) =
        slotNames ((vol.dirSlots l).map (vol.imageOn d).slot) :=
      filter_eq_self.mpr fun name _ => by simpa using hall name
    exact ⟨dir', hselected ▸ hrun⟩
  · obtain ⟨n, hfault⟩ := readdirs_panic hpos hslots hat hmem hpanic
    obtain ⟨dir', hrun⟩ := hall n
    rw [hrun] at hfault
    cases hfault
  · exact readdirs_on hpos hslots hat hpat n
  · intro path pattern d' hfirst hnul name hmem
    rw [matchPattern, fFindfirst_pattern hfirst]
    split
    · exact Option.some_ne_none _
    · exact matchPatternInner_ne_none (slotNames_last hmem)
        (fun h => hnul (mem_of_mem_take h)) (Nat.zero_le 12)

/-- A root directory of two clusters: the file `ABC` and slots of long names in the first one, the
files `BA` and `A` in the second one. -/
def abcDisk : Disk := diskOf [0x0FFFFFF8, 0x0FFFFFFF, 3, 0x0FFFFFFF]
  [fileSlot [0x41, 0x42, 0x43] 0 0 ++ replicate 480 0x0F,
    fileSlot [0x42, 0x41] 0 0 ++ fileSlot [0x41] 0 0]

/-- Its names. -/
def abcNames : List Bytes :=
  [[0x41, 0x42, 0x43] ++ replicate 10 0, [0x42, 0x41] ++ replicate 11 0, 0x41 :: replicate 12 0]

theorem abc_chain : tinyVol.ChainOn abcDisk 2 [2, 3] := by decide +kernel

theorem abc_names : slotNames ((tinyVol.dirSlots [2, 3]).map (tinyVol.imageOn abcDisk).slot) =
    abcNames := by decide +kernel

/-- The handle of `f_findfirst("/", pattern)` on the sample volume. -/
def rootDir (pattern : Bytes) (patLen : Nat) : Dir := ⟨2, 2, 0, 0, false, pattern, patLen⟩

/-- `f_opendir` of the root, and five calls: the names, and then false. -/
theorem readdir_enumerates_abc : ∃ dir',
    readdirs (some tinyVol) 5 ⟨abcDisk, rootDir (replicate 11 0) 0⟩ =
      .ok (abcNames.map some ++ [none, none]) ⟨abcDisk, dir'⟩ := by
  obtain ⟨dir', hrun⟩ := (readdir_enumerates tinyVol abcDisk 2 [2, 3]
    (rootDir (replicate 11 0) 0) (by decide) (by decide) abc_chain rfl rfl rfl).1 rfl 5
  rw [abc_names] at hrun
  exact ⟨dir', hrun⟩

/-- `f_findfirst("/", "*\0\0\0\0\0\0\0\0\0\0")` and `f_readdir`: behind the star ten NUL bytes are
compared with the bytes from 3 on of the name `ABC`, of which there are ten, and then byte 13 is
read. -/
theorem nul_pattern_panics : fFindfirst (some tinyVol) [0x2F] (0x2A :: replicate 10 0) abcDisk =
      .ok (rootDir (0x2A :: replicate 10 0) 11) abcDisk ∧
    tinyVol.ChainOn abcDisk 2 [2, 3] ∧
    slotNames ((tinyVol.dirSlots [2, 3]).map (tinyVol.imageOn abcDisk).slot) = abcNames ∧
    fReaddir (some tinyVol) ⟨abcDisk, rootDir (0x2A :: replicate 10 0) 11⟩ =
      .fault .panic :=
  ⟨rfl, abc_chain, abc_names, by decide +kernel⟩

end PlanckOS.Fat32
