import PlanckOS.Fat32.Browse
import PlanckOS.Fat32.Metadata

/-!
# The volume label

`f_setlabel` and `f_getlabel` both go through the slots of the root directory, and treat deleted and
unused slots differently. Over the list of the root's entries they are `relabel` and `readLabel`
(`fSetlabel_run`, `fGetlabel_run`).

`f_setlabel` takes the first unused slot only if no deleted slot comes before it. Behind a deleted
slot it looks for an entry with the volume attribute and nothing else, and if there is none it
returns without having written a label. So the label read back is the one set exactly when a slot
that it takes comes before every unused slot (`LabelFits`); see `label_round_trip_iff`.
-/

set_option autoImplicit false

namespace PlanckOS.Fat32

open Lib.Fallible FatVolume List

variable {label : Bytes} {foundSlot : Bool} {d : Disk} {img : Image} {l : List Nat} {a n : Nat}
  {p q : Slot}

/-! ## The two scans over a list of entries -/

/-- The entry with the name bytes of the label. -/
def namedLabel (label : Bytes) (e : Entry) : Entry := Buf.store e 0 (labelBytes label)

/-- The entry as a new label. -/
def newLabel (label : Bytes) (e : Entry) : Entry :=
  Buf.store e 0 (labelBytes label ++ [UInt8.ofNat ATTR_VOLUME])

/-- What `f_setlabel` makes of the entries of the root directory. -/
def relabel (label : Bytes) : Bool → List Entry → List Entry
  | _, [] => []
  | foundSlot, e :: es =>
      if e 0 = 0 ∧ foundSlot = false then newLabel label e :: es
      else if e 0 = 0xE5 ∧ foundSlot = false then e :: relabel label true es
      else if attrOf e = ATTR_VOLUME then namedLabel label e :: es
      else e :: relabel label foundSlot es

/-- What `f_getlabel` leaves in the caller's buffer. -/
def readLabel (buf : Bytes) : List Entry → Bytes
  | [] => replicate 12 0
  | e :: es =>
      if e 0 = 0 then buf
      else if e 0 = 0xE5 then readLabel buf es
      else if attrOf e = ATTR_VOLUME then labelOf e
      else readLabel buf es

/-- A label of up to eleven bytes. -/
structure LabelName (label : Bytes) : Prop where
  ne_nil : label ≠ []
  length_le : label.length ≤ 11
  plain : ∀ b ∈ label, b ≠ 0x20 ∧ b ≠ 0
  head : label.head? ≠ some 0xE5

/-- The label with the zeros behind it. -/
def zeroFilled (label : Bytes) : Bytes := label ++ replicate (12 - label.length) 0

/-- Some slot can take a label, with no unused slot before it: behind a deleted slot one with the
volume attribute, otherwise an unused slot or a label. -/
def LabelFits (foundSlot : Bool) (es : List Entry) : Prop :=
  ∃ pre e post, es = pre ++ e :: post ∧ (∀ q ∈ pre, q 0 ≠ 0) ∧
    (((foundSlot = true ∨ ∃ q ∈ pre, q 0 = 0xE5) ∧ attrOf e = ATTR_VOLUME) ∨
      (foundSlot = false ∧ (∀ q ∈ pre, q 0 ≠ 0xE5) ∧
        (e 0 = 0 ∨ e 0 ≠ 0xE5 ∧ attrOf e = ATTR_VOLUME)))

section Entries

variable {e : Entry} {es : List Entry}

section

variable (h : LabelName label)
include h

theorem labelBytes_length : (labelBytes label).length = 11 := by
  have := h.length_le
  rw [labelBytes, length_append, length_take, length_replicate]
  omega

theorem labelBytes_eq : labelBytes label = label ++ replicate (11 - label.length) 0x20 := by
  rw [labelBytes, take_of_length_le h.length_le]

/-- The first byte of a label is neither that of an unused nor that of a deleted slot. -/
theorem labelBytes_head : (labelBytes label).getD 0 0 ≠ 0 ∧ (labelBytes label).getD 0 0 ≠ 0xE5 := by
  rw [labelBytes_eq h]
  cases label with
  | nil => exact absurd rfl h.ne_nil
  | cons b rest =>
    refine ⟨(h.plain b mem_cons_self).2, fun hb => h.head ?_⟩
    exact congrArg some hb

/-- An entry that has the name bytes of the label. -/
structure Labelled (label : Bytes) (e : Entry) : Prop where
  name : ∀ k < 11, e k = (labelBytes label).getD k 0
  attr : attrOf e = ATTR_VOLUME

theorem labelled_new (e : Entry) : Labelled label (newLabel label e) where
  name k hk := by
    have hlen := labelBytes_length h
    rw [newLabel, Buf.store, length_append, if_pos (by omega), Nat.sub_zero,
      getD_append _ _ _ _ (by omega)]
  attr := by
    have hlen := labelBytes_length h
    rw [attrOf, newLabel, Buf.store, length_append, hlen, if_pos (by decide), Nat.sub_zero,
      getD_append_right _ _ _ _ hlen.le, hlen]
    rfl

theorem labelled_named (hattr : attrOf e = ATTR_VOLUME) : Labelled label (namedLabel label e) where
  name k hk := by
    rw [namedLabel, Buf.store, labelBytes_length h, if_pos (by omega), Nat.sub_zero]
  attr := by
    rw [attrOf, namedLabel, Buf.store, labelBytes_length h, if_neg (by decide)]
    exact hattr

omit h in
/-- The label is read back from such an entry. -/
theorem Labelled.labelOf_eq (h : Labelled label e) (hl : LabelName label) :
    labelOf e = zeroFilled label := by
  have hbytes : (range 11).map e = labelBytes label := by
    apply ext_getElem
    · rw [length_map, length_range, labelBytes_length hl]
    · intro k hk hk'
      rw [length_map, length_range] at hk
      rw [getElem_map, getElem_range, h.name k hk, getD_eq_getElem _ _ hk']
  have hkeep : label.filter (· != 0x20) = label :=
    filter_eq_self.mpr fun b hb => bne_iff_ne.mpr (hl.plain b hb).1
  have hdrop : (replicate (11 - label.length) (0x20 : UInt8)).filter (· != 0x20) = [] :=
    filter_eq_nil_iff.mpr fun b hb => by rw [eq_of_mem_replicate hb]; decide
  rw [labelOf, hbytes, labelBytes_eq hl, filter_append, hkeep, hdrop, append_nil]
  rfl

omit h in
/-- `f_getlabel` stops at such an entry. -/
theorem Labelled.readLabel_cons (h : Labelled label e) (hl : LabelName label) (buf : Bytes)
    (es : List Entry) : readLabel buf (e :: es) = zeroFilled label := by
  obtain ⟨h0, h5⟩ := labelBytes_head hl
  rw [readLabel, h.name 0 (by decide), if_neg h0, if_neg h5, if_pos h.attr, h.labelOf_eq hl]

/-- The label is not the text of an empty buffer. -/
theorem zeroFilled_ne : replicate 12 0 ≠ zeroFilled label := by
  intro heq
  cases label with
  | nil => exact h.ne_nil rfl
  | cons b rest => exact (h.plain b mem_cons_self).2 (cons.inj heq).1.symm

end

/-! ### When a slot fits -/

theorem not_labelFits_nil : ¬ LabelFits foundSlot [] := by
  rintro ⟨pre, e, post, hsplit, -⟩
  exact absurd hsplit.symm (append_ne_nil_of_right_ne_nil _ (cons_ne_nil _ _))

/-- A slot that fits at once. -/
theorem labelFits_head (h : (foundSlot = true ∧ attrOf e = ATTR_VOLUME) ∨
    foundSlot = false ∧ (e 0 = 0 ∨ e 0 ≠ 0xE5 ∧ attrOf e = ATTR_VOLUME)) :
    LabelFits foundSlot (e :: es) := by
  refine ⟨[], e, es, rfl, fun _ h => absurd h not_mem_nil, ?_⟩
  rcases h with ⟨hf, ha⟩ | ⟨hf, h⟩
  · exact .inl ⟨.inl hf, ha⟩
  · exact .inr ⟨hf, fun _ h => absurd h not_mem_nil, h⟩

/-- Otherwise the slot is passed, and must not be unused. -/
theorem labelFits_cons_iff (h : ¬ ((foundSlot = true ∧ attrOf e = ATTR_VOLUME) ∨
    foundSlot = false ∧ (e 0 = 0 ∨ e 0 ≠ 0xE5 ∧ attrOf e = ATTR_VOLUME))) :
    LabelFits foundSlot (e :: es) ↔ e 0 ≠ 0 ∧ LabelFits (foundSlot || e 0 == 0xE5) es := by
  -- a slot that is not taken matters for the slots behind it as a deleted one only
  have hseen : ∀ pre : List Entry, (foundSlot || e 0 == 0xE5) = true ∨ (∃ q ∈ pre, q 0 = 0xE5) ↔
      foundSlot = true ∨ ∃ q ∈ e :: pre, q 0 = 0xE5 := by
    intro pre
    rw [Bool.or_eq_true, beq_iff_eq, exists_mem_cons_iff, or_assoc]
  have hunseen : ∀ pre : List Entry, (foundSlot || e 0 == 0xE5) = false ∧ (∀ q ∈ pre, q 0 ≠ 0xE5) ↔
      foundSlot = false ∧ ∀ q ∈ e :: pre, q 0 ≠ 0xE5 := by
    intro pre
    rw [Bool.or_eq_false_iff, beq_eq_false_iff_ne, forall_mem_cons, and_assoc]
  constructor
  · rintro ⟨pre, x, post, hsplit, hpre, hfits⟩
    cases pre with
    | nil =>
      -- the slot taken would be this one
      obtain ⟨rfl, rfl⟩ := cons.inj hsplit
      refine absurd ?_ h
      rcases hfits with ⟨hf | ⟨q, hq, -⟩, ha⟩ | ⟨hf, -, hx⟩
      · exact .inl ⟨hf, ha⟩
      · exact absurd hq not_mem_nil
      · exact .inr ⟨hf, hx⟩
    | cons y pre =>
      obtain ⟨rfl, rfl⟩ := cons.inj hsplit
      rw [forall_mem_cons] at hpre
      refine ⟨hpre.1, pre, x, post, rfl, hpre.2, ?_⟩
      rcases hfits with ⟨hf, ha⟩ | ⟨hf, hdel, hx⟩
      · exact .inl ⟨(hseen pre).mpr hf, ha⟩
      · obtain ⟨hf', hdel'⟩ := (hunseen pre).mpr ⟨hf, hdel⟩
        exact .inr ⟨hf', hdel', hx⟩
  · rintro ⟨h0, pre, x, post, rfl, hpre, hfits⟩
    refine ⟨e :: pre, x, post, rfl, forall_mem_cons.mpr ⟨h0, hpre⟩, ?_⟩
    rcases hfits with ⟨hf, ha⟩ | ⟨hf, hdel, hx⟩
    · exact .inl ⟨(hseen pre).mp hf, ha⟩
    · obtain ⟨hf', hdel'⟩ := (hunseen pre).mp ⟨hf, hdel⟩
      exact .inr ⟨hf', hdel', hx⟩

/-- **The label is read back** exactly when a slot fits. -/
theorem readLabel_relabel_iff (hl : LabelName label) (foundSlot : Bool) (es : List Entry) :
    (∀ buf : Bytes, buf.length = 12 →
      readLabel buf (relabel label foundSlot es) = zeroFilled label) ↔ LabelFits foundSlot es := by
  have hempty : (replicate 12 (0 : UInt8)).length = 12 := length_replicate
  induction es generalizing foundSlot with
  | nil =>
    refine iff_of_false (fun h => ?_) not_labelFits_nil
    exact zeroFilled_ne hl (h _ hempty)
  | cons e es ih =>
    rw [relabel]
    split
    next hunused =>
      refine iff_of_true (fun buf _ => (labelled_new hl e).readLabel_cons hl buf es) ?_
      exact labelFits_head (.inr ⟨hunused.2, .inl hunused.1⟩)
    next hunused =>
    split
    next hdel =>
      obtain ⟨hdel, rfl⟩ := hdel
      have h0 : e 0 ≠ 0 := by
        rw [hdel]
        decide
      simp only [readLabel, if_neg h0, if_pos hdel]
      refine (ih true).trans ?_
      rw [labelFits_cons_iff, and_iff_right h0, hdel]
      · rfl
      · rintro (⟨hf, -⟩ | ⟨-, hx | ⟨hx, -⟩⟩)
        · exact Bool.false_ne_true hf
        · exact h0 hx
        · exact hx hdel
    next hdel =>
    split
    next hattr =>
      refine iff_of_true (fun buf _ => (labelled_named hl hattr).readLabel_cons hl buf es) ?_
      cases foundSlot with
      | true => exact labelFits_head (.inl ⟨rfl, hattr⟩)
      | false => exact labelFits_head (.inr ⟨rfl, .inr ⟨fun h => hdel ⟨h, rfl⟩, hattr⟩⟩)
    next hattr =>
      have hpass : ¬ ((foundSlot = true ∧ attrOf e = ATTR_VOLUME) ∨
          foundSlot = false ∧ (e 0 = 0 ∨ e 0 ≠ 0xE5 ∧ attrOf e = ATTR_VOLUME)) := by
        rintro (⟨-, ha⟩ | ⟨hf, h0 | ⟨-, ha⟩⟩)
        · exact hattr ha
        · exact hunused ⟨h0, hf⟩
        · exact hattr ha
      -- a deleted slot was seen before, if this one is deleted
      have hseen : (foundSlot || e 0 == 0xE5) = foundSlot := by
        cases foundSlot with
        | true => rfl
        | false => exact beq_eq_false_iff_ne.mpr fun h => hdel ⟨h, rfl⟩
      rw [labelFits_cons_iff hpass, hseen]
      by_cases h0 : e 0 = 0
      · simp only [readLabel, if_pos h0]
        exact iff_of_false (fun h => zeroFilled_ne hl (h _ hempty)) fun h => h.1 h0
      · have hread : ∀ buf, readLabel buf (e :: relabel label foundSlot es) =
            readLabel buf (relabel label foundSlot es) := by
          intro buf
          rw [readLabel, if_neg h0, if_neg hattr, ite_self]
        rw [and_iff_right h0]
        simp only [hread]
        exact ih foundSlot

end Entries

/-! ## `f_getlabel` -/

/-- How `f_getlabel` goes on after one cluster. -/
def LabelScan.resume (buf rest : Bytes) : LabelScan → Bytes
  | .stopped => buf
  | .found label => label
  | .exhausted => rest

theorem readLabel_cluster (img : Image) (buf : Bytes) (c i n : Nat) (es : List Entry) :
    readLabel buf (((range' i n).map fun i => (c, i)).map img.slot ++ es) =
      (scanLabel (img.data c) i n).resume buf (readLabel buf es) := by
  induction n generalizing i with
  | zero => rfl
  | succ n ih =>
    have hslot : img.slot (c, i) = entryAt (img.data c) i := rfl
    rw [range'_succ, map_cons, map_cons, cons_append, readLabel, scanLabel, hslot]
    simp only [ih (i + 1)]
    split
    · rfl
    split
    · rfl
    split
    · rfl
    · rfl

section Calls

variable {vol : FatVolume} {buf : Bytes} {c : Nat}

/-- One round of `f_getlabel` on a cluster of the chain. -/
theorem getlabelStep_run (hg : Geometry vol) (hv : view vol d = img) (ha : vol.Valid a) :
    getlabelStep vol buf a d =
      match scanLabel (img.data a) 0 vol.slotsPerCluster with
      | .stopped => .ok (.done buf) d
      | .found label => .ok (.done label) d
      | .exhausted =>
          if END_MARK ≤ img.next a then .ok (.done (replicate 12 0)) d
          else .ok (.next (img.next a)) d := by
  rw [getlabelStep, Op.bind_ok (readCluster_shows hg hv ha)]
  cases scanLabel (img.data a) 0 vol.slotsPerCluster with
  | stopped => rfl
  | found label => rfl
  | exhausted =>
    refine (Op.bind_ok (readFatEntry_shows hg hv ha.2)).trans ?_
    simp only
    split
    · rfl
    · rfl

/-- **`f_getlabel` reads the entries of the root directory.** -/
theorem fGetlabel_run (hg : Geometry vol) (hv : view vol d = img)
    (hl : img.Chain vol vol.rootCluster l) (buf : Bytes) :
    fGetlabel (some vol) buf d = .ok (readLabel buf ((vol.dirSlots l).map img.slot)) d := by
  -- one round per cluster; the last one sees the end mark
  have hround : ∀ {a : Nat} {ps : List Slot} {n : Nat}, vol.Valid a →
      (END_MARK ≤ img.next a ∧ ps = [] ∨ ¬ END_MARK ≤ img.next a ∧
        Op.loopM (getlabelStep vol buf) n (img.next a) d =
          .ok (readLabel buf (ps.map img.slot)) d) →
      Op.loopM (getlabelStep vol buf) (n + 1) a d =
        .ok (readLabel buf ((vol.clusterSlots a ++ ps).map img.slot)) d := by
    intro a ps n ha hrest
    have hstep : getlabelStep vol buf a d = _ := getlabelStep_run hg hv ha
    rw [map_append, clusterSlots, readLabel_cluster]
    cases hscan : scanLabel (img.data a) 0 vol.slotsPerCluster with
    | stopped =>
      rw [hscan] at hstep
      exact Op.loopM_done hstep
    | found label =>
      rw [hscan] at hstep
      exact Op.loopM_done hstep
    | exhausted =>
      rw [hscan] at hstep
      rcases hrest with ⟨hend, rfl⟩ | ⟨hgo, hrun⟩
      · exact Op.loopM_done (hstep.trans (if_pos hend))
      · exact (Op.loopM_next (hstep.trans (if_neg hgo))).trans hrun
  suffices h : ∀ n, l.length ≤ n → Op.loopM (getlabelStep vol buf) n vol.rootCluster d =
      .ok (readLabel buf ((vol.dirSlots l).map img.slot)) d from h _ (chain_length_lt hg hl).le
  generalize vol.rootCluster = c at hl
  induction hl with
  | @last a ha hs =>
    intro n hn
    obtain ⟨n, rfl⟩ : ∃ m, n = m + 1 := ⟨n - 1, by rw [length_singleton] at hn; omega⟩
    rw [dirSlots, flatMap_cons]
    exact hround ha (.inl ⟨hs, rfl⟩)
  | @link a l ha h ih =>
    intro n hn
    obtain ⟨n, rfl⟩ : ∃ m, n = m + 1 := ⟨n - 1, by rw [length_cons] at hn; omega⟩
    have hnext := ih n (by rw [length_cons] at hn; omega)
    rw [dirSlots, flatMap_cons]
    exact hround ha (.inr ⟨hg.not_stop _ h.head_valid, hnext⟩)

end Calls

/-! ## `f_setlabel` -/

/-- The slot that `f_setlabel` takes, and what it stores there. -/
def labelSlot (img : Image) (label : Bytes) : Bool → List Slot → Option (Slot × Bytes)
  | _, [] => none
  | foundSlot, p :: ps =>
      if img.slot p 0 = 0 ∧ foundSlot = false then
        some (p, labelBytes label ++ [UInt8.ofNat ATTR_VOLUME])
      else if img.slot p 0 = 0xE5 ∧ foundSlot = false then labelSlot img label true ps
      else if attrOf (img.slot p) = ATTR_VOLUME then some (p, labelBytes label)
      else labelSlot img label foundSlot ps

/-- How `f_setlabel` goes on after one cluster. -/
def LabelPlace.resume (label : Bytes) (c : Nat) (rest : Bool → Option (Slot × Bytes)) :
    LabelPlace → Option (Slot × Bytes)
  | .create idx => some ((c, idx), labelBytes label ++ [UInt8.ofNat ATTR_VOLUME])
  | .overwrite idx => some ((c, idx), labelBytes label)
  | .exhausted foundSlot => rest foundSlot

/-- A slot of the volume with the label stored. -/
def labelledSlot (img : Image) : Option (Slot × Bytes) → Slot → Entry
  | none, q => img.slot q
  | some (p, bytes), q => if q = p then (img.slot q).store 0 bytes else img.slot q

/-- The device with the label stored. -/
def FatVolume.labelledOn (vol : FatVolume) (d : Disk) : Option (Slot × Bytes) → Disk
  | none => d
  | some (p, bytes) => vol.setSlotOn d p 0 bytes

theorem labelSlot_cluster (img : Image) (label : Bytes) (c : Nat) (foundSlot : Bool) (i n : Nat)
    (ps : List Slot) : labelSlot img label foundSlot ((range' i n).map (fun i => (c, i)) ++ ps) =
      (placeLabel (img.data c) foundSlot i n).resume label c
        fun foundSlot => labelSlot img label foundSlot ps := by
  induction n generalizing i foundSlot with
  | zero => rfl
  | succ n ih =>
    have hslot : img.slot (c, i) = entryAt (img.data c) i := rfl
    rw [range'_succ, map_cons, cons_append, labelSlot, placeLabel, hslot]
    simp only [ih]
    split
    · rfl
    split
    · rfl
    split
    · rfl
    · rfl

section Slots

variable {vol : FatVolume} {bytes : Bytes}
  {ps : List Slot}

/-- The slot taken is one of the directory, without an entry of a file or a directory, and what is
stored is the label. -/
theorem labelSlot_some (hl : LabelName label)
    (h : labelSlot img label foundSlot ps = some (p, bytes)) :
    p ∈ ps ∧ (Vacant (img.slot p) ∨ attrOf (img.slot p) = ATTR_VOLUME) ∧ bytes.length ≤ 12 := by
  have hlen := labelBytes_length hl
  induction ps generalizing foundSlot with
  | nil => cases h
  | cons q ps ih =>
    rw [labelSlot] at h
    split at h
    next hunused =>
      cases h
      refine ⟨mem_cons_self, .inl (.inl hunused.1), ?_⟩
      rw [length_append, hlen, length_singleton]
    next =>
    split at h
    next => exact (ih h).imp_left (mem_cons_of_mem _)
    next =>
    split at h
    next hattr =>
      cases h
      exact ⟨mem_cons_self, .inr hattr, by omega⟩
    next => exact (ih h).imp_left (mem_cons_of_mem _)

/-- The entries of the slots passed and of those behind the slot taken stay as they are. -/
theorem map_labelledSlot_of_notMem (hp : p ∉ ps) (bytes : Bytes) :
    ps.map (labelledSlot img (some (p, bytes))) = ps.map img.slot := by
  refine map_congr_left fun q hq => if_neg ?_
  rintro rfl
  exact hp hq

theorem labelledSlot_of_notMem (hl : LabelName label) (hp : p ∉ ps) :
    labelledSlot img (labelSlot img label foundSlot ps) p = img.slot p := by
  cases hslot : labelSlot img label foundSlot ps with
  | none => rfl
  | some r =>
    refine if_neg ?_
    rintro rfl
    exact hp (labelSlot_some hl hslot).1

/-- **The entries of the root directory, with the label stored in the slot.** -/
theorem relabel_eq (hl : LabelName label) (hnodup : ps.Nodup) :
    relabel label foundSlot (ps.map img.slot) =
      ps.map (labelledSlot img (labelSlot img label foundSlot ps)) := by
  induction ps generalizing foundSlot with
  | nil => rfl
  | cons p ps ih =>
    obtain ⟨hp, hnodup⟩ := nodup_cons.mp hnodup
    rw [map_cons, map_cons, relabel, labelSlot]
    split
    next => rw [map_labelledSlot_of_notMem hp, labelledSlot, if_pos rfl, newLabel]
    next =>
    split
    next => rw [labelledSlot_of_notMem hl hp, ih hnodup]
    next =>
    split
    next => rw [map_labelledSlot_of_notMem hp, labelledSlot, if_pos rfl, namedLabel]
    next => rw [labelledSlot_of_notMem hl hp, ih hnodup]

/-- The bytes of a new label, in one go. -/
theorem store_labelBytes (hl : LabelName label) (buf : Buf) (off : Nat) (b : UInt8) :
    (buf.store off (labelBytes label)).set (off + 0x0B) b =
      buf.store off (labelBytes label ++ [b]) := by
  have hlen := labelBytes_length hl
  funext k
  simp only [Buf.set, Buf.store, length_append, length_singleton, hlen]
  by_cases hk : k = off + 0x0B
  · subst hk
    rw [if_pos rfl, if_pos (by omega), Nat.add_sub_cancel_left,
      getD_append_right _ _ _ _ hlen.le, hlen]
    rfl
  · rw [if_neg hk]
    by_cases hin : off ≤ k ∧ k < off + 11
    · rw [if_pos hin, if_pos (by omega), getD_append _ _ _ _ (by omega)]
    · rw [if_neg hin, if_neg (by omega)]

theorem placeLabel_lt {buf : Buf} {i idx : Nat} (h : placeLabel buf foundSlot i n = .create idx ∨
    placeLabel buf foundSlot i n = .overwrite idx) : idx < i + n := by
  induction n generalizing i foundSlot with
  | zero => rcases h with h | h <;> cases h
  | succ n ih =>
    rw [placeLabel] at h
    split at h
    next =>
      rcases h with h | h
      · cases h
        omega
      · cases h
    next =>
    split at h
    next =>
      have := ih h
      omega
    next =>
    split at h
    next =>
      rcases h with h | h
      · cases h
      · cases h
        omega
    next =>
      have := ih h
      omega

variable (hg : Geometry vol)
include hg

/-- One round of `f_setlabel` on a cluster of the chain. -/
theorem setlabelStep_run (hv : view vol d = img) (hl : LabelName label) (ha : vol.Valid a) :
    setlabelStep vol label (a, foundSlot) d =
      match placeLabel (img.data a) foundSlot 0 vol.slotsPerCluster with
      | .create idx =>
          .ok (.done ())
            (vol.setSlotOn d (a, idx) 0 (labelBytes label ++ [UInt8.ofNat ATTR_VOLUME]))
      | .overwrite idx => .ok (.done ()) (vol.setSlotOn d (a, idx) 0 (labelBytes label))
      | .exhausted foundSlot =>
          if END_MARK ≤ img.next a then .ok (.done ()) d
          else .ok (.next (img.next a, foundSlot)) d := by
  -- the whole cluster is written, but only one slot of it differs
  have hwrite : ∀ (idx : Nat) (bytes : Bytes), idx < vol.slotsPerCluster → bytes.length ≤ 32 →
      vol.writeCluster a (Buf.store (img.data a) (idx * DIR_SIZE) bytes) d =
        .ok () (vol.setSlotOn d (a, idx) 0 bytes) := by
    intro idx bytes hidx hlen
    have hrun : (vol.writeCluster a ((vol.clusterOn d a).store (idx * DIR_SIZE + 0) bytes) :
        DevOp Disk Unit) d = .ok () (vol.setSlotOn d (a, idx) 0 bytes) :=
      writeCluster_slot (hg.spc_le.trans (by norm_num)) hidx ((Nat.zero_add _).trans_le hlen)
    rwa [clusterOn_eq hg hv ha] at hrun
  have hlen := labelBytes_length hl
  rw [setlabelStep, Op.bind_ok (readCluster_shows hg hv ha)]
  cases hplace : placeLabel (img.data a) foundSlot 0 vol.slotsPerCluster with
  | create idx =>
    have hidx := placeLabel_lt (.inl hplace)
    rw [Nat.zero_add] at hidx
    simp only [if_neg hl.ne_nil, store_labelBytes hl]
    refine Op.bind_ok (hwrite idx _ hidx ?_)
    rw [length_append, hlen]
    decide
  | overwrite idx =>
    have hidx := placeLabel_lt (.inr hplace)
    rw [Nat.zero_add] at hidx
    exact Op.bind_ok (hwrite idx _ hidx (by omega))
  | exhausted foundSlot =>
    refine (Op.bind_ok (readFatEntry_shows hg hv ha.2)).trans ?_
    simp only
    split
    · rfl
    · rfl

/-- **`f_setlabel` stores the label in the slot it takes.** -/
theorem fSetlabel_run (hv : view vol d = img) (hl : LabelName label)
    (hchain : img.Chain vol vol.rootCluster l) : fSetlabel (some vol) label d =
      .ok () (vol.labelledOn d (labelSlot img label false (vol.dirSlots l))) := by
  have hround : ∀ {a : Nat} {ps : List Slot} {n : Nat} {foundSlot : Bool}, vol.Valid a →
      (END_MARK ≤ img.next a ∧ ps = [] ∨ ¬ END_MARK ≤ img.next a ∧ ∀ foundSlot,
        Op.loopM (setlabelStep vol label) n (img.next a, foundSlot) d =
          .ok () (vol.labelledOn d (labelSlot img label foundSlot ps))) →
      Op.loopM (setlabelStep vol label) (n + 1) (a, foundSlot) d =
        .ok () (vol.labelledOn d (labelSlot img label foundSlot (vol.clusterSlots a ++ ps))) := by
    intro a ps n foundSlot ha hrest
    have hstep : setlabelStep vol label (a, foundSlot) d = _ :=
      setlabelStep_run hg hv hl ha
    rw [clusterSlots, labelSlot_cluster]
    cases hplace : placeLabel (img.data a) foundSlot 0 vol.slotsPerCluster with
    | create idx =>
      rw [hplace] at hstep
      exact Op.loopM_done hstep
    | overwrite idx =>
      rw [hplace] at hstep
      exact Op.loopM_done hstep
    | exhausted foundSlot' =>
      rw [hplace] at hstep
      rcases hrest with ⟨hend, rfl⟩ | ⟨hgo, hrun⟩
      · exact Op.loopM_done (hstep.trans (if_pos hend))
      · exact (Op.loopM_next (hstep.trans (if_neg hgo))).trans (hrun foundSlot')
  suffices h : ∀ n foundSlot, l.length ≤ n →
      Op.loopM (setlabelStep vol label) n (vol.rootCluster, foundSlot) d =
        .ok () (vol.labelledOn d (labelSlot img label foundSlot (vol.dirSlots l))) from
    h _ false (chain_length_lt hg hchain).le
  generalize vol.rootCluster = c at hchain
  induction hchain with
  | @last a ha hs =>
    intro n foundSlot hn
    obtain ⟨n, rfl⟩ : ∃ m, n = m + 1 := ⟨n - 1, by rw [length_singleton] at hn; omega⟩
    rw [dirSlots, flatMap_cons]
    exact hround ha (.inl ⟨hs, rfl⟩)
  | @link a l ha h ih =>
    intro n foundSlot hn
    obtain ⟨n, rfl⟩ : ∃ m, n = m + 1 := ⟨n - 1, by rw [length_cons] at hn; omega⟩
    rw [dirSlots, flatMap_cons]
    refine hround ha (.inr ⟨hg.not_stop _ h.head_valid, fun foundSlot => ?_⟩)
    exact ih n foundSlot (by rw [length_cons] at hn; omega)

/-- Slots of the volume lie at different places. -/
theorem slotByte_eq_iff (hp : vol.Valid p.1) (hi : p.2 < vol.slotsPerCluster) (hq : vol.Valid q.1)
    (hj : q.2 < vol.slotsPerCluster) :
    vol.slotByte q 0 = vol.slotByte p 0 ↔ q = p := by
  refine ⟨fun h => ?_, fun h => by rw [h]⟩
  have hend := slot_end hi
  have hend' := slot_end hj
  rw [clusterSize_eq] at hend hend'
  obtain ⟨hsector, hoff⟩ := Prod.mk.inj h
  rw [hg.sector_eq hp (by omega), hg.sector_eq hq (by omega)] at hsector
  have hquot : ∀ x i, i / 16 < vol.sectorsPerCluster →
      ((x - 2) * vol.sectorsPerCluster + i / 16) / vol.sectorsPerCluster = x - 2 := by
    intro x i hlt
    rw [Nat.mul_comm, Nat.mul_add_div hg.spc_pos, Nat.div_eq_of_lt hlt, Nat.add_zero]
  have hcluster : q.1 - 2 = p.1 - 2 := by
    rw [← hquot q.1 q.2 (by omega), ← hquot p.1 p.2 (by omega)]
    congr 1
    omega
  rw [hcluster] at hsector
  have hp2 := hp.1
  have hq2 := hq.1
  exact Prod.ext (by omega) (by omega)

/-- The volume after `f_setlabel`: the links are the same, and so are the slots but one. -/
theorem view_labelledOn (hl : LabelName label) (hchain : (view vol d).Chain vol vol.rootCluster l) :
    (view vol (vol.labelledOn d (labelSlot (view vol d) label false (vol.dirSlots l)))).Chain vol
        vol.rootCluster l ∧
      ∀ q ∈ vol.dirSlots l,
        (view vol (vol.labelledOn d (labelSlot (view vol d) label false (vol.dirSlots l)))).slot q =
          labelledSlot (view vol d) (labelSlot (view vol d) label false (vol.dirSlots l)) q := by
  have hslots : ∀ q ∈ vol.dirSlots l, vol.Valid q.1 ∧ q.2 < vol.slotsPerCluster := fun q hq =>
    (mem_dirSlots.mp hq).imp_left hchain.valid_of_mem
  cases hslot : labelSlot (view vol d) label false (vol.dirSlots l) with
  | none => exact ⟨hchain, fun _ _ => rfl⟩
  | some r =>
    obtain ⟨p, bytes⟩ := r
    obtain ⟨hp, -, hlen⟩ := labelSlot_some hl hslot
    obtain ⟨hvp, hip⟩ := hslots p hp
    refine ⟨hchain.congr fun x _ => view_setSlotOn_next hg hvp hip x, fun q hq => ?_⟩
    obtain ⟨hvq, hiq⟩ := hslots q hq
    have hif : (vol.slotByte q 0 = vol.slotByte p 0) = (q = p) :=
      propext (slotByte_eq_iff hg hvp hip hvq hiq)
    rw [FatVolume.labelledOn, view_setSlotOn_slot hg (by omega) hvq hiq, labelledSlot]
    simp only [hif]

end Slots

/-- **The label is read back exactly when a slot for it comes before every unused slot.** For every
volume whose root directory has a chain: `f_setlabel` returns, changes at most one slot of the root,
which is vacant or a label, and `f_getlabel` then yields the label exactly when `LabelFits` holds of
the entries before. -/
theorem label_round_trip_iff (vol : FatVolume) (d : Disk) (label : Bytes) (l : List Nat)
    (hg : Geometry vol) (hl : (view vol d).Chain vol vol.rootCluster l) (hlabel : LabelName label) :
    ∃ d', fSetlabel (some vol) label d = .ok () d' ∧
      (∀ q ∈ vol.dirSlots l, (view vol d').slot q ≠ (view vol d).slot q →
        (Vacant ((view vol d).slot q) ∨ attrOf ((view vol d).slot q) = ATTR_VOLUME) ∧
        ∀ r ∈ vol.dirSlots l, r ≠ q → (view vol d').slot r = (view vol d).slot r) ∧
      ((∀ buf : Bytes, buf.length = 12 → fGetlabel (some vol) buf d' = .ok (zeroFilled label) d') ↔
        LabelFits false ((vol.dirSlots l).map (view vol d).slot)) := by
  obtain ⟨hchain, hslots⟩ := view_labelledOn hg hlabel hl
  refine ⟨_, fSetlabel_run hg rfl hlabel hl, ?_, ?_⟩
  · -- the slot taken is the only one that changes
    intro q hq hchanged
    rw [hslots q hq] at hchanged
    cases hslot : labelSlot (view vol d) label false (vol.dirSlots l) with
    | none =>
      rw [hslot] at hchanged
      exact absurd rfl hchanged
    | some r =>
      obtain ⟨p, bytes⟩ := r
      rw [hslot] at hchanged hslots
      have hqp : q = p := by
        by_contra hne
        exact hchanged (if_neg hne)
      subst hqp
      refine ⟨(labelSlot_some hlabel hslot).2.1, fun r hr hne => ?_⟩
      rw [hslots r hr]
      exact if_neg hne
  · -- both calls are functions of the slots of the root
    have hnodup : (vol.dirSlots l).Nodup := dirSlots_nodup (hl.nodup hg.not_stop)
    rw [← readLabel_relabel_iff hlabel, relabel_eq hlabel hnodup, ← map_congr_left hslots]
    refine forall₂_congr fun buf _ => ?_
    rw [fGetlabel_run hg rfl hchain]
    constructor
    · intro h
      exact (Outcome.ok.inj h).1
    · intro h
      rw [h]

/-! ## Two volumes -/

theorem labelName_P : LabelName [0x50] where
  ne_nil := cons_ne_nil _ _
  length_le := by decide
  plain b hb := by
    rw [mem_singleton.mp hb]
    decide
  head := by decide

/-- Behind three live entries the first unused slot takes the label. -/
theorem label_round_trip_iff_second : ∃ d', fSetlabel (some tinyVol) [0x50] secondDisk = .ok () d' ∧
    ∀ buf : Bytes, buf.length = 12 →
      fGetlabel (some tinyVol) buf d' = .ok (0x50 :: replicate 11 0) d' := by
  have hroot : secondImage.Chain tinyVol 2 [2] := second_chain (by decide)
  have hslots : tinyVol.dirSlots [2] =
      [(2, 0), (2, 1), (2, 2)] ++ (2, 3) :: (range' 4 12).map fun i => (2, i) := by decide
  have hfits : LabelFits false ((tinyVol.dirSlots [2]).map secondImage.slot) := by
    rw [hslots, map_append]
    refine ⟨_, secondImage.slot (2, 3), _, rfl, ?_, .inr ⟨rfl, ?_, .inl (by decide +kernel)⟩⟩
    · rw [forall_mem_map]
      decide +kernel
    · rw [forall_mem_map]
      decide +kernel
  obtain ⟨d', hset, -, hiff⟩ := label_round_trip_iff tinyVol secondDisk [0x50] [2] tiny_geometry
    hroot labelName_P
  exact ⟨d', hset, hiff.mpr hfits⟩

/-- The first slot of the root directory is deleted and unused ones follow: `f_setlabel` returns Ok
and has written nothing. -/
theorem label_not_written : WellFormed tinyVol (view tinyVol sampleDisk) ∧ LabelName [0x50] ∧
    (∃ p ∈ tinyVol.dirSlots [2], Vacant ((view tinyVol sampleDisk).slot p)) ∧
    fSetlabel (some tinyVol) [0x50] sampleDisk = .ok () sampleDisk ∧
    fGetlabel (some tinyVol) (replicate 12 0) sampleDisk =
      .ok (replicate 12 0) sampleDisk := by
  have hroot : (view tinyVol sampleDisk).Chain tinyVol 2 [2] := by decide +kernel
  refine ⟨sample_wellFormed, labelName_P, ⟨(2, 0), by decide, by decide +kernel⟩, ?_, ?_⟩
  · have hnone :
        labelSlot (view tinyVol sampleDisk) [0x50] false (tinyVol.dirSlots [2]) = none := by
      decide +kernel
    rw [fSetlabel_run tiny_geometry rfl labelName_P hroot, hnone]
    rfl
  · have hread : readLabel (replicate 12 0)
        ((tinyVol.dirSlots [2]).map (view tinyVol sampleDisk).slot) = replicate 12 0 := by
      decide +kernel
    rw [fGetlabel_run tiny_geometry rfl hroot, hread]

end PlanckOS.Fat32
