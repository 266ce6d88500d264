import PlanckOS.Fat32.Listing

/-!
# Removing many entries

`Pruned vol img₀ img G` says that `img` is `img₀` with the entries in the slots `G` removed: their
slots are marked as deleted, their clusters are free, and nothing else differs. One more `f_unlink`
adds one more slot (`Pruned.unlink`), and a lookup or a listing in `img` is one in `img₀` that
leaves out the slots `G` (`Pruned.scanDir_eq`, `Pruned.entryNames_eq`).

The tree below an entry is `Below`. In a well-formed volume it lies deeper than the entry
(`Below.slotAt`). A path therefore stays the same while entries further down are removed
(`PathTo.pruned`).
-/

set_option autoImplicit false

namespace PlanckOS.Fat32

open FatVolume List

variable {vol : FatVolume} {img img₀ img' : Image} {r q : Slot} {j k a : Nat} {l : List Nat}
  {G S : List Slot} {o : Owner}

/-! ## The tree below an entry -/

/-- Slot `t` belongs to a directory of depth `k`. -/
def SlotAt (vol : FatVolume) (img : Image) (k : Nat) (t : Slot) : Prop :=
  ∃ a l, Depth vol img a k ∧ img.Chain vol a l ∧ t ∈ vol.dirSlots l

/-- Slot `q` belongs to the directory whose entry is in slot `r`. -/
def Inside (vol : FatVolume) (img : Image) (r q : Slot) : Prop :=
  ∃ l, img.Chain vol (startOf (img.slot r)) l ∧ q ∈ vol.dirSlots l

/-- The slots of the directory whose entry is in slot `s`, and of the directories below it. -/
inductive Below (vol : FatVolume) (img : Image) (s : Slot) : Slot → Prop
  | child {q : Slot} (h : Inside vol img s q) : Below vol img s q
  | deep {r q : Slot} (h : Below vol img s r) (hr : Subdirectory (img.slot r))
      (hq : Inside vol img r q) : Below vol img s q

section Tree

variable {s t u : Slot}

theorem SlotAt.place (hg : Geometry vol) (h : SlotAt vol img k t) :
    DirCluster vol img t.1 ∧ t.2 < vol.slotsPerCluster := by
  obtain ⟨a, l, ha, hl, ht⟩ := h
  obtain ⟨h1, h2⟩ := mem_dirSlots.mp ht
  exact ⟨(ha.dirHead hg).dirCluster.of_chain hl _ h1, h2⟩

theorem SlotAt.owner (hg : Geometry vol) (h : SlotAt vol img k t) (hl : LiveEntry (img.slot t))
    (hd : ¬ IsDot (img.slot t)) : Owner.Live vol img (some t) :=
  ⟨(h.place hg).1, (h.place hg).2, hl, hd⟩

section

variable (hg : Geometry vol) (hw : WellFormed vol img) (h : SlotAt vol img k t)
include hg hw h

/-- A directory of another depth does not have the slot. -/
theorem SlotAt.not_mem (ha : Depth vol img a j) (hjk : j ≠ k) (hl : img.Chain vol a l) :
    t ∉ vol.dirSlots l := by
  intro ht
  obtain ⟨b, m, hb, hm, ht'⟩ := h
  have hab : a ≠ b := by
    rintro rfl
    exact hjk (ha.unique hg hw hb)
  exact (ha.dirHead hg).disjoint hw (hb.dirHead hg) hab hl hm _ (mem_dirSlots.mp ht).1
    (mem_dirSlots.mp ht').1

theorem SlotAt.unique (h' : SlotAt vol img j t) : j = k := by
  by_contra hjk
  obtain ⟨a, l, ha, hl, ht⟩ := h'
  exact h.not_mem hg hw ha hjk hl ht

end

/-- The slots of a subdirectory are one step further down. -/
theorem SlotAt.inside (h : SlotAt vol img k t) (hd : Subdirectory (img.slot t))
    (hq : Inside vol img t q) : SlotAt vol img (k + 1) q := by
  obtain ⟨a, l, ha, hl, ht⟩ := h
  obtain ⟨m, hm, hqm⟩ := hq
  exact ⟨_, m, .child ha hl ht hd hm.head_valid, hm, hqm⟩

/-- The slots below an entry are further down than it. -/
theorem Below.slotAt (h : Below vol img s q) (hs : SlotAt vol img k s)
    (hd : Subdirectory (img.slot s)) : ∃ j, k < j ∧ SlotAt vol img j q := by
  induction h with
  | child h => exact ⟨k + 1, Nat.lt_succ_self k, hs.inside hd h⟩
  | deep _ hr hq ih =>
    obtain ⟨j, hkj, hj⟩ := ih
    exact ⟨j + 1, by omega, hj.inside hr hq⟩

theorem Below.trans (h : Below vol img s r) (hr : Subdirectory (img.slot r))
    (h' : Below vol img r q) : Below vol img s q := by
  induction h' with
  | child h' => exact .deep h hr h'
  | deep _ hr' hq ih => exact .deep ih hr' hq

end Tree

/-! ## Volumes with entries removed -/

/-- The image `img` is `img₀` without the entries in the slots `G`. -/
structure Pruned (vol : FatVolume) (img₀ img : Image) (G : List Slot) : Prop where
  owners : ∀ q ∈ G, Owner.Live vol img₀ (some q)
  deleted : ∀ q ∈ G, img.slot q 0 = 0xE5
  slots : ∀ q, q ∉ G → q.2 < vol.slotsPerCluster → img.slot q = img₀.slot q
  data : ∀ c, (∀ q ∈ G, q.1 ≠ c) → img.data c = img₀.data c
  freed : ∀ q ∈ G, ∀ x, Owner.Holds vol img₀ (some q) x → img.next x = 0
  table : ∀ x, (∀ q ∈ G, ¬ Owner.Holds vol img₀ (some q) x) → img.fat x = img₀.fat x

namespace Pruned

variable {p : Slot} {x : Nat}

theorem nil (vol : FatVolume) (img : Image) : Pruned vol img img [] where
  owners _ hq := absurd hq not_mem_nil
  deleted _ hq := absurd hq not_mem_nil
  slots _ _ _ := rfl
  data _ _ := rfl
  freed _ hq := absurd hq not_mem_nil
  table _ _ := rfl

/-- The slots of a live entry are still there. -/
theorem not_mem_of_live (h : Pruned vol img₀ img G) (hl : LiveEntry (img.slot q)) : q ∉ G :=
  fun hq => hl.2.2 (h.deleted q hq)

/-- The clusters of the other owners have their table entries. -/
theorem next_eq (hw : WellFormed vol img₀) (h : Pruned vol img₀ img G)
    (ho : o.Live vol img₀) (hne : ∀ q ∈ G, o ≠ some q) (hx : o.Holds vol img₀ x) :
    img.next x = img₀.next x := by
  rw [Image.next, Image.next, h.table x]
  exact fun q hq => hw.disjoint o _ ho (h.owners q hq) (hne q hq) x hx

section

variable (hg : Geometry vol) (hw : WellFormed vol img₀) (h : Pruned vol img₀ img G)
include hg hw h

/-- The chain of another owner is the same. -/
theorem chain_iff (ho : o.Live vol img₀) (hne : ∀ q ∈ G, o ≠ some q) :
    img.Chain vol (o.start vol img₀) l ↔ img₀.Chain vol (o.start vol img₀) l := by
  have hsame : ∀ {m : List Nat}, img₀.Chain vol (o.start vol img₀) m →
      img.Chain vol (o.start vol img₀) m :=
    fun hm => hm.congr fun x hx => h.next_eq hw ho hne ⟨_, hm, hx⟩
  refine ⟨fun hl => ?_, hsame⟩
  rcases hw.heads o ho with h0 | ⟨m, hm⟩
  · have := hl.head_valid.1
    omega
  · exact hl.unique hg.not_stop (hsame hm) ▸ hm

/-- **Removing one more entry.** -/
theorem unlink (hp : Owner.Live vol img₀ (some p)) (hpG : p ∉ G) (hun : Unlinked vol img p img') :
    Pruned vol img₀ img' (p :: G) := by
  have hslot := h.slots p hpG hp.2.1
  have hne : ∀ q ∈ G, (some p : Owner) ≠ some q := by
    intro q hq heq
    exact hpG (Option.some.inj heq ▸ hq)
  -- the entry has kept its chain while the others were removed
  have hholds : ∀ x, Owner.Holds vol img (some p) x ↔ Owner.Holds vol img₀ (some p) x := by
    intro x
    rw [Owner.Holds, Owner.Holds, Owner.start, Owner.start, hslot]
    exact exists_congr fun l => and_congr_left' (h.chain_iff hg hw hp hne)
  constructor
  · intro q hq
    rcases mem_cons.mp hq with rfl | hq
    · exact hp
    · exact h.owners q hq
  · intro q hq
    by_cases hqp : q = p
    · rw [hqp, hun.entry]
      rfl
    · have hqG := (mem_cons.mp hq).resolve_left hqp
      rw [hun.slots q hqp (h.owners q hqG).2.1]
      exact h.deleted q hqG
  · intro q hq hi
    obtain ⟨hqp, hqG⟩ := not_or.mp fun hor => hq (mem_cons.mpr hor)
    rw [hun.slots q hqp hi, h.slots q hqG hi]
  · intro c hc
    rw [hun.data c (hc p mem_cons_self).symm]
    exact h.data c fun q hq => hc q (mem_cons_of_mem _ hq)
  · intro q hq x hx
    rcases mem_cons.mp hq with rfl | hqG
    · exact hun.freed x ((hholds x).mpr hx)
    · have hxp : ¬ Owner.Holds vol img (some p) x := fun hxp =>
        hw.disjoint _ _ hp (h.owners q hqG) (hne q hqG) x ((hholds x).mp hxp) hx
      rw [Image.next, hun.table x hxp]
      exact h.freed q hqG x hx
  · intro x hx
    rw [hun.table x fun hxp => hx p mem_cons_self ((hholds x).mp hxp)]
    exact h.table x fun q hq => hx q (mem_cons_of_mem _ hq)

end

/-! ## Lookups and listings -/

/-- The slots that are left. -/
def rest (G S : List Slot) : List Slot := S.filter (· ∉ G)

theorem checkSlot_deleted {e : Entry} (h : e 0 = 0xE5) (target : Bytes) :
    checkSlot e target = .skip := by
  rw [checkSlot, h]
  split
  · rfl
  · rfl

/-- **A lookup leaves out what was removed.** -/
theorem scanDir_eq (h : Pruned vol img₀ img G) (target : Bytes)
    (hS : ∀ q ∈ S, q.2 < vol.slotsPerCluster) :
    scanDir img target S = scanDir img₀ target (rest G S) := by
  induction S with
  | nil => rfl
  | cons q S ih =>
    have hrest := ih fun r hr => hS r (mem_cons_of_mem _ hr)
    rw [scanDir, rest, filter_cons]
    by_cases hq : q ∈ G
    · rw [if_neg (by simpa using hq), checkSlot_deleted (h.deleted q hq)]
      exact hrest
    · rw [if_pos (by simpa using hq), scanDir, h.slots q hq (hS q mem_cons_self), hrest, rest]

/-- **A listing leaves out what was removed.** -/
theorem entryNames_eq (h : Pruned vol img₀ img G)
    (hS : ∀ q ∈ S, q.2 < vol.slotsPerCluster) : entryNames img S = entryNames img₀ (rest G S) := by
  induction S with
  | nil => rfl
  | cons q S ih =>
    have hrest := ih fun r hr => hS r (mem_cons_of_mem _ hr)
    rw [rest, filter_cons]
    by_cases hq : q ∈ G
    · have hdel := h.deleted q hq
      have hm : ¬ EndMarker (img.slot q) := by
        rw [EndMarker, hdel]
        decide
      have hl : ¬ LiveEntry (img.slot q) := fun hl => hl.2.2 hdel
      rw [if_neg (by simpa using hq), ← rest, ← hrest, entryNames, map_cons,
        takeWhile_cons, if_pos (by simpa using hm), filter_cons, if_neg (by simpa using hl)]
      rfl
    · have hslot := h.slots q hq (hS q mem_cons_self)
      rw [if_pos (by simpa using hq), ← rest]
      rw [entryNames, entryNames] at hrest ⊢
      rw [map_cons, map_cons, takeWhile_cons, takeWhile_cons, hslot]
      split
      · rw [filter_cons, filter_cons]
        split
        · rw [filterMap_cons, filterMap_cons, hrest]
        · exact hrest
      · rfl

end Pruned

/-! ## Directories that are still there -/

/-- Cluster `a` is the first one of a directory of depth `k` whose entry is not among `G`. -/
def Standing (vol : FatVolume) (img₀ : Image) (G : List Slot) (k a : Nat) : Prop :=
  Depth vol img₀ a k ∧ ∃ o : Owner, o.Live vol img₀ ∧ o.start vol img₀ = a ∧ (∀ q ∈ G, o ≠ some q) ∧
    ∀ r, o = some r → ∃ i, i < k ∧ SlotAt vol img₀ i r

section Standing

variable {d : Disk} {G' : List Slot} {c c' : Nat}
  {name path : Bytes} {xs : List Bytes}

theorem Standing.root (vol : FatVolume) (img₀ : Image) (G : List Slot) :
    Standing vol img₀ G 0 vol.rootCluster :=
  ⟨.root, none, trivial, rfl, fun _ _ heq => (nomatch heq), fun _ heq => (nomatch heq)⟩

theorem Standing.child (hg : Geometry vol) (h : Standing vol img₀ G k a) (hl : img₀.Chain vol a l)
    (hr : r ∈ vol.dirSlots l) (hrG : r ∉ G) (hd : Subdirectory (img₀.slot r))
    (hv : vol.Valid (startOf (img₀.slot r))) :
    Standing vol img₀ G (k + 1) (startOf (img₀.slot r)) := by
  have hat : SlotAt vol img₀ k r := ⟨a, l, h.1, hl, hr⟩
  refine ⟨.child h.1 hl hr hd hv, some r, hat.owner hg hd.1 hd.2.2, rfl, ?_, ?_⟩
  · intro q hq heq
    exact hrG (Option.some.inj heq ▸ hq)
  · intro r' heq
    exact ⟨k, Nat.lt_succ_self k, Option.some.inj heq ▸ hat⟩

variable (hg : Geometry vol) (hw : WellFormed vol img₀)

include hg hw in
/-- Removing entries further down leaves the directory standing. -/
theorem Standing.append (h : Standing vol img₀ G j a) (hjk : j ≤ k)
    (hdeep : ∀ q ∈ G', ∃ i, k < i ∧ SlotAt vol img₀ i q) :
    Standing vol img₀ (G' ++ G) j a := by
  obtain ⟨hd, o, ho, hstart, hne, hup⟩ := h
  refine ⟨hd, o, ho, hstart, ?_, hup⟩
  intro q hq heq
  rcases mem_append.mp hq with hq | hq
  · obtain ⟨i, hki, hi⟩ := hdeep q hq
    obtain ⟨i', hij, hi'⟩ := hup q heq
    have := hi.unique hg hw hi'
    omega
  · exact hne q hq heq

include hg hw in
theorem Standing.chain_iff (h : Standing vol img₀ G k a) (hp : Pruned vol img₀ img G) :
    img.Chain vol a l ↔ img₀.Chain vol a l := by
  obtain ⟨-, o, ho, rfl, hne, -⟩ := h
  exact hp.chain_iff hg hw ho hne

include hg hw in
/-- The slots that are left stay the same while entries further down are removed. -/
theorem Standing.rest_append (h : Standing vol img₀ G j a) (hl : img₀.Chain vol a l) (hjk : j ≤ k)
    (hdeep : ∀ q ∈ G', ∃ i, k < i ∧ SlotAt vol img₀ i q) (hS : S ⊆ vol.dirSlots l) :
    Pruned.rest (G' ++ G) S = Pruned.rest G S := by
  apply filter_congr
  intro q hqS
  have hq := hS hqS
  rw [decide_eq_decide, mem_append, not_or]
  refine ⟨fun h => h.2, fun hqG => ⟨fun hqG' => ?_, hqG⟩⟩
  obtain ⟨i, hki, hi⟩ := hdeep q hqG'
  exact hi.not_mem hg hw h.1 (by omega) hl hq

theorem dirSlots_index (q : Slot) (hq : q ∈ vol.dirSlots l) : q.2 < vol.slotsPerCluster :=
  (mem_dirSlots.mp hq).2

include hg hw in
/-- What is selected is what the scan of the slots that are left yields. -/
theorem Standing.selects_iff (h : Standing vol img₀ G k a) (hp : Pruned vol img₀ img G)
    (hl : img₀.Chain vol a l) :
    Selects vol img a name r ↔
      scanDir img₀ name (Pruned.rest G (vol.dirSlots l)) = some (some r) := by
  have hl' := (h.chain_iff hg hw hp).mpr hl
  rw [← hp.scanDir_eq name dirSlots_index]
  constructor
  · rintro ⟨m, pre, post, hm, hslots, hskip, hhit⟩
    rw [hl'.unique hg.not_stop hm, hslots]
    exact scanDir_hit hskip hhit
  · intro hscan
    obtain ⟨pre, post, hslots, hskip, hhit⟩ := scanDir_found hscan
    exact ⟨l, pre, post, hl', hslots, hskip, hhit⟩

include hg hw in
/-- A selected slot is one of those that are left. -/
theorem Standing.selects_mem (h : Standing vol img₀ G k a) (hp : Pruned vol img₀ img G)
    (hsel : Selects vol img a name r) :
    ∃ l, img₀.Chain vol a l ∧ r ∈ vol.dirSlots l ∧ r ∉ G ∧ img.slot r = img₀.slot r ∧
      LiveEntry (img₀.slot r) := by
  obtain ⟨l, pre, post, hl, hslots, -, hhit⟩ := hsel
  have hr := mem_iff_append.mpr ⟨_, _, hslots⟩
  have hlive := live_of_hit hhit
  have hrG := hp.not_mem_of_live hlive
  have hslot := hp.slots r hrG (dirSlots_index r hr)
  exact ⟨l, (h.chain_iff hg hw hp).mp hl, hr, hrG, hslot, hslot ▸ hlive⟩

include hg hw in
/-- **A walk through directories stays the same while entries further down are removed.** -/
theorem Leads.pruned (hp : Pruned vol img₀ img G) (hp' : Pruned vol img₀ img' (G' ++ G))
    (hdeep : ∀ q ∈ G', ∃ i, k < i ∧ SlotAt vol img₀ i q)
    (h : Leads vol img c xs c') (hv : vol.Valid c') (hs : Standing vol img₀ G j c) :
    ∃ m, j ≤ m ∧ Standing vol img₀ G m c' ∧ (m ≤ k → Leads vol img' c xs c') := by
  induction h generalizing j with
  | nil c => exact ⟨j, le_rfl, hs, fun _ => .nil c⟩
  | skip _ ih =>
    obtain ⟨m, hjm, hm, hrest⟩ := ih hv hs
    exact ⟨m, hjm, hm, fun hmk => .skip (hrest hmk)⟩
  | @step c c' r component rest hne hsel hd hleads ih =>
    obtain ⟨l, hl, hr, hrG, hslot, -⟩ := hs.selects_mem hg hw hp hsel
    have hvr := hleads.valid hv
    rw [hslot] at hd hvr hleads ih
    obtain ⟨m, hjm, hm, hrest⟩ := ih hv (hs.child hg hl hr hrG hd hvr)
    refine ⟨m, by omega, hm, fun hmk => ?_⟩
    have hscan := (hs.selects_iff hg hw hp hl).mp hsel
    rw [← hs.rest_append hg hw hl (by omega) hdeep (List.Subset.refl _)] at hscan
    have hs' := hs.append hg hw (show j ≤ k by omega) hdeep
    have hsel' := (hs'.selects_iff hg hw hp' hl).mpr hscan
    obtain ⟨-, -, -, -, hslot', -⟩ := hs'.selects_mem hg hw hp' hsel'
    exact .step hne hsel' (hslot' ▸ hd) (hslot' ▸ hrest hmk)

include hg hw in
/-- The same for a path. -/
theorem PathTo.pruned (hp : Pruned vol img₀ img G) (hp' : Pruned vol img₀ img' (G' ++ G))
    (hdeep : ∀ q ∈ G', ∃ i, k < i ∧ SlotAt vol img₀ i q)
    (h : PathTo vol img path c name) (hd : Depth vol img₀ c k) : PathTo vol img' path c name := by
  obtain ⟨parents, hcomp, hleads⟩ := h
  have hv := (hd.dirHead hg).1
  obtain ⟨m, -, hm, hrest⟩ := hleads.pruned hg hw hp hp' hdeep hv (.root vol img₀ G)
  exact ⟨parents, hcomp, hrest (hm.1.unique hg hw hd).le⟩

end Standing

end PlanckOS.Fat32
