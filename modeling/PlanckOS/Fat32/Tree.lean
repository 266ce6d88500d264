import PlanckOS.Fat32.Lookup

/-!
# The directory tree

The clusters that belong to directories (`DirCluster`) are those reached from the root along the
table and through live subdirectory slots. The owners of chains are the root and the live entries
of the tree; `WellFormed` says that every owner's chain is finite, in range and properly ended, and
that different owners have disjoint chains. `WellFormedBut vol img p` leaves the slot `p` out: it
holds while an operation works on that slot.

`Retained` collects what a change has to leave alone for the tree to stay the same apart from `p`;
its lemmas carry the directories, the owners, their chains and `WellFormedBut` over to the changed
image. `resolvePath_sat` says where `resolve_path` ends when every component it passes leads to a
directory of the tree.
-/

set_option autoImplicit false

namespace PlanckOS.Fat32

open Lib.Fallible FatVolume List

variable {target : Bytes} {vol : FatVolume} {p : Slot} {c : Nat} {l : List Nat} {e : Entry}

/-! ## Entries -/

/-- The entry has the directory bit. -/
def IsDirEntry (e : Entry) : Prop := attrOf e &&& ATTR_DIRECTORY ≠ 0
  deriving Decidable

/-- The 11 name bytes of a slot. -/
def nameBytes (e : Entry) : Bytes := (range 11).map e

/-- The entries `.` and `..`, which repeat the directory's own start and that of its parent. -/
def IsDot (e : Entry) : Prop :=
  IsDirEntry e ∧ (nameBytes e = 0x2E :: replicate 10 0x20 ∨
    nameBytes e = 0x2E :: 0x2E :: replicate 9 0x20)
  deriving Decidable

/-- A live directory below the one that holds the slot. -/
def Subdirectory (e : Entry) : Prop := LiveEntry e ∧ IsDirEntry e ∧ ¬ IsDot e
  deriving Decidable

theorem not_subdirectory_of_not_live (h : ¬ LiveEntry e) : ¬ Subdirectory e :=
  fun hs => h hs.1

theorem not_subdirectory_of_regular (h : ¬ IsDirEntry e) : ¬ Subdirectory e :=
  fun hs => h hs.2.1

theorem not_dot_of_regular (h : ¬ IsDirEntry e) : ¬ IsDot e := fun hd => h hd.1

/-- A slot at which the lookup stops is live. -/
theorem live_of_hit (h : checkSlot e target = .hit) : LiveEntry e := by
  rw [checkSlot] at h
  by_cases hh : Hidden e
  · exact absurd ((if_pos hh).symm.trans h) (by decide)
  replace h := (if_neg hh).symm.trans h
  by_cases hm : EndMarker e
  · exact absurd ((if_pos hm).symm.trans h) (by decide)
  replace h := (if_neg hm).symm.trans h
  by_cases hd : e 0 = 0xE5
  · exact absurd ((if_pos hd).symm.trans h) (by decide)
  exact ⟨hh, hm, hd⟩

theorem scanSlots_found {buf : Buf} {i n idx : Nat} (h : scanSlots buf target i n = .found idx) :
    idx < i + n ∧ LiveEntry (entryAt buf idx) := by
  induction n generalizing i with
  | zero => cases h
  | succ n ih =>
    rw [scanSlots] at h
    cases hcheck : checkSlot (entryAt buf i) target with
    | skip =>
      rw [hcheck] at h
      obtain ⟨hlt, hlive⟩ := ih h
      exact ⟨by omega, hlive⟩
    | stop =>
      rw [hcheck] at h
      cases h
    | hit =>
      rw [hcheck] at h
      obtain rfl := ScanResult.found.inj h
      exact ⟨by omega, live_of_hit hcheck⟩
    | panic =>
      rw [hcheck] at h
      cases h

/-- A slot at which the lookup gives up has an end marker. -/
theorem marker_of_stop (h : checkSlot e target = .stop) : EndMarker e := by
  rw [checkSlot] at h
  by_cases hh : Hidden e
  · exact absurd ((if_pos hh).symm.trans h) (by decide)
  replace h := (if_neg hh).symm.trans h
  by_contra hm
  replace h := (if_neg hm).symm.trans h
  split at h
  · cases h
  · split at h
    · cases h
    · split at h <;> cases h

/-! ## Directories and owners -/

/-- The clusters of directories. -/
inductive DirCluster (vol : FatVolume) (img : Image) : Nat → Prop
  | root : DirCluster vol img vol.rootCluster
  | next {c : Nat} (h : DirCluster vol img c) (hv : vol.Valid (img.next c)) :
      DirCluster vol img (img.next c)
  | child {p : Slot} (h : DirCluster vol img p.1) (hi : p.2 < vol.slotsPerCluster)
      (he : Subdirectory (img.slot p)) (hv : vol.Valid (startOf (img.slot p))) :
      DirCluster vol img (startOf (img.slot p))

/-- The root directory, or the entry in a slot. -/
abbrev Owner := Option Slot

/-- The entries of the tree: those in slots of directories. -/
def Owner.Live (vol : FatVolume) (img : Image) : Owner → Prop
  | none => True
  | some p => DirCluster vol img p.1 ∧ p.2 < vol.slotsPerCluster ∧ LiveEntry (img.slot p) ∧
      ¬ IsDot (img.slot p)

/-- The first cluster of an owner's chain. -/
def Owner.start (vol : FatVolume) (img : Image) : Owner → Nat
  | none => vol.rootCluster
  | some p => startOf (img.slot p)

/-- The owner is a directory. -/
def Owner.IsDir (img : Image) : Owner → Prop
  | none => True
  | some p => Subdirectory (img.slot p)

/-- A cluster of the owner's chain. -/
def Owner.Holds (vol : FatVolume) (img : Image) (o : Owner) (x : Nat) : Prop :=
  ∃ l, img.Chain vol (o.start vol img) l ∧ x ∈ l

/-- A cluster in the chain of a live owner other than slot `p`. -/
def Protected (vol : FatVolume) (img : Image) (p : Slot) (x : Nat) : Prop :=
  ∃ o : Owner, o.Live vol img ∧ o ≠ some p ∧ o.Holds vol img x

/-- Every live owner has no cluster or a proper chain, and no two of them share a cluster; the two
reserved entries of the table are end marks. -/
structure WellFormed (vol : FatVolume) (img : Image) : Prop where
  heads : ∀ o : Owner, o.Live vol img → o.start vol img = 0 ∨ ∃ l, img.Chain vol (o.start vol img) l
  disjoint : ∀ o o' : Owner, o.Live vol img → o'.Live vol img → o ≠ o' →
    ∀ x, o.Holds vol img x → ¬ o'.Holds vol img x
  first : END_MARK ≤ img.next 0
  second : END_MARK ≤ img.next 1

/-- The same for all owners except the entry in slot `p`. -/
structure WellFormedBut (vol : FatVolume) (img : Image) (p : Slot) : Prop where
  heads : ∀ o : Owner, o.Live vol img → o ≠ some p →
    o.start vol img = 0 ∨ ∃ l, img.Chain vol (o.start vol img) l
  disjoint : ∀ o o' : Owner, o.Live vol img → o'.Live vol img → o ≠ some p → o' ≠ some p →
    o ≠ o' → ∀ x, o.Holds vol img x → ¬ o'.Holds vol img x
  first : END_MARK ≤ img.next 0
  second : END_MARK ≤ img.next 1

/-- Every cluster of a directory starts a chain. -/
def TreeOk (vol : FatVolume) (img : Image) : Prop :=
  ∀ c, DirCluster vol img c → ∃ l, img.Chain vol c l

section Facts

variable {img img' : Image} {x : Nat}

theorem WellFormed.but (h : WellFormed vol img) (p : Slot) : WellFormedBut vol img p where
  heads o ho _ := h.heads o ho
  disjoint o o' ho ho' _ _ := h.disjoint o o' ho ho'
  first := h.first
  second := h.second

/-- The clusters behind a directory cluster belong to the directory. -/
theorem DirCluster.of_chain (hc : DirCluster vol img c) (hl : img.Chain vol c l) :
    ∀ x ∈ l, DirCluster vol img x := by
  induction hl with
  | last _ _ =>
    intro x hx
    exact mem_singleton.mp hx ▸ hc
  | link _ h ih =>
    intro x hx
    rcases mem_cons.mp hx with rfl | hx
    · exact hc
    · exact ih (.next hc h.head_valid) x hx

theorem chain_next_ne_zero (hl : img.Chain vol c l) (hx : x ∈ l) : img.next x ≠ 0 := by
  intro h0
  rcases hl.next_cases hx with hn | hn
  · have hv := (hl.valid_of_mem hn).1
    omega
  · rw [END_MARK] at hn
    omega

theorem Owner.Holds.chain_mem {o : Owner} (hg : Geometry vol) (h : o.Holds vol img x)
    (hl : img.Chain vol (o.start vol img) l) : x ∈ l := by
  obtain ⟨l', hl', hx⟩ := h
  exact hl'.unique hg.not_stop hl ▸ hx

/-- Protected clusters are allocated. -/
theorem Protected.next_ne_zero (h : Protected vol img p x) : img.next x ≠ 0 := by
  obtain ⟨_, _, _, _, hl, hx⟩ := h
  exact chain_next_ne_zero hl hx

theorem Protected.valid (h : Protected vol img p x) : vol.Valid x := by
  obtain ⟨_, _, _, _, hl, hx⟩ := h
  exact hl.valid_of_mem hx

/-- Directory clusters are held by directories. -/
theorem DirCluster.held (hg : Geometry vol) (heads : ∀ o : Owner, o.Live vol img → o.IsDir img →
      o.start vol img = 0 ∨ ∃ l, img.Chain vol (o.start vol img) l) (hc : DirCluster vol img c) :
    ∃ o : Owner, o.Live vol img ∧ o.IsDir img ∧ o.Holds vol img c := by
  -- a valid start is not 0, so there is a chain
  have hold : ∀ o : Owner, o.Live vol img → o.IsDir img → vol.Valid (o.start vol img) →
      o.Holds vol img (o.start vol img) := by
    intro o ho hd hv
    rcases heads o ho hd with h0 | ⟨l, hl⟩
    · have := hv.1
      omega
    · exact ⟨l, hl, hl.head_mem⟩
  induction hc with
  | root => exact ⟨none, trivial, trivial, hold none trivial trivial hg.root_valid⟩
  | next _ hv ih =>
    obtain ⟨o, ho, hd, l, hl, hx⟩ := ih
    exact ⟨o, ho, hd, l, hl, (hl.next_cases hx).resolve_right (hg.not_stop _ hv)⟩
  | @child q hq hi he hv ih =>
    have hlive : Owner.Live vol img (some q) := ⟨hq, hi, he.1, he.2.2⟩
    exact ⟨some q, hlive, he, hold (some q) hlive he hv⟩

/-- A live owner with a valid start cluster has a chain. -/
theorem WellFormed.holds_start (hw : WellFormed vol img) {o : Owner} (ho : o.Live vol img)
    (hv : vol.Valid (o.start vol img)) : o.Holds vol img (o.start vol img) := by
  rcases hw.heads o ho with h0 | ⟨l, hl⟩
  · have := hv.1
    omega
  · exact ⟨l, hl, hl.head_mem⟩

/-- While an operation works on a slot that is no directory, all directories are protected. -/
theorem WellFormedBut.dir_protected (hg : Geometry vol) (hw : WellFormedBut vol img p)
    (hp : ¬ Subdirectory (img.slot p)) (hc : DirCluster vol img c) : Protected vol img p c := by
  have hne : ∀ o : Owner, o.IsDir img → o ≠ some p := by
    rintro o hd rfl
    exact hp hd
  obtain ⟨o, ho, hd, hx⟩ := hc.held hg fun o ho hd => hw.heads o ho (hne o hd)
  exact ⟨o, ho, hne o hd, hx⟩

theorem treeOk_of_heads (hg : Geometry vol) (heads : ∀ o : Owner, o.Live vol img → o.IsDir img →
      o.start vol img = 0 ∨ ∃ l, img.Chain vol (o.start vol img) l) : TreeOk vol img := by
  intro c hc
  obtain ⟨_, _, _, _, hl, hx⟩ := hc.held hg heads
  obtain ⟨_, l₂, _, h₂⟩ := hl.suffix hx
  exact ⟨l₂, h₂⟩

theorem WellFormed.treeOk (hg : Geometry vol) (hw : WellFormed vol img) : TreeOk vol img :=
  treeOk_of_heads hg fun o ho _ => hw.heads o ho

/-! ## Changes that keep the tree -/

/-- The images agree in the table entries of the directories and in their subdirectories. -/
structure DirsAgree (vol : FatVolume) (img img' : Image) : Prop where
  next : ∀ c, DirCluster vol img c → img'.next c = img.next c
  slot : ∀ q : Slot, DirCluster vol img q.1 → q.2 < vol.slotsPerCluster →
    img'.slot q = img.slot q ∨ (¬ Subdirectory (img'.slot q) ∧ ¬ Subdirectory (img.slot q))

/-- The directories depend on nothing else. -/
theorem DirsAgree.dirCluster_iff (h : DirsAgree vol img img') :
    DirCluster vol img' c ↔ DirCluster vol img c := by
  constructor
  · intro hc
    induction hc with
    | root => exact .root
    | @next c _ hv ih =>
      rw [h.next c ih] at hv ⊢
      exact .next ih hv
    | @child q _ hi he hv ih =>
      rcases h.slot q ih hi with hs | ⟨hno, -⟩
      · rw [hs] at he hv ⊢
        exact .child ih hi he hv
      · exact absurd he hno
  · intro hc
    induction hc with
    | root => exact .root
    | @next c hc hv ih =>
      rw [← h.next c hc] at hv ⊢
      exact .next ih hv
    | @child q hq hi he hv ih =>
      rcases h.slot q hq hi with hs | ⟨-, hno⟩
      · rw [← hs] at he hv ⊢
        exact .child ih hi he hv
      · exact absurd he hno

theorem DirsAgree.treeOk (h : DirsAgree vol img img') (ht : TreeOk vol img) : TreeOk vol img' := by
  intro c hc
  have hc' := h.dirCluster_iff.mp hc
  obtain ⟨l, hl⟩ := ht c hc'
  exact ⟨l, hl.congr fun x hx => h.next x (hc'.of_chain hl x hx)⟩

/-- The change from `img` to `img'` leaves the tree alone, apart from the entry in slot `p`, which
is no directory before and after. -/
structure Retained (vol : FatVolume) (img img' : Image) (p : Slot) : Prop where
  entry : ¬ Subdirectory (img.slot p)
  entry' : ¬ Subdirectory (img'.slot p)
  table : ∀ x, Protected vol img p x → img'.next x = img.next x
  slots : ∀ q, q ≠ p → DirCluster vol img q.1 → q.2 < vol.slotsPerCluster → img'.slot q = img.slot q

namespace Retained

variable (hg : Geometry vol) (hw : WellFormedBut vol img p) (h : Retained vol img img' p)
  {o : Owner}
include hg hw h

theorem dirCluster_iff : DirCluster vol img' c ↔ DirCluster vol img c := by
  refine DirsAgree.dirCluster_iff ⟨?_, ?_⟩
  · intro c hc
    exact h.table c (hw.dir_protected hg h.entry hc)
  · intro q hq hi
    by_cases hqp : q = p
    · subst hqp
      exact .inr ⟨h.entry', h.entry⟩
    · exact .inl (h.slots q hqp hq hi)

theorem live_iff (ho : o ≠ some p) : o.Live vol img' ↔ o.Live vol img := by
  cases o with
  | none => exact Iff.rfl
  | some q =>
    have hqp : q ≠ p := fun hq => ho (hq ▸ rfl)
    simp only [Owner.Live, dirCluster_iff hg hw h]
    refine and_congr_right fun hq => and_congr_right fun hi => ?_
    rw [h.slots q hqp hq hi]

section

variable (ho : o ≠ some p) (hlive : o.Live vol img)
include ho hlive

omit hg hw in
theorem start_eq : o.start vol img' = o.start vol img := by
  cases o with
  | none => rfl
  | some q =>
    have hqp : q ≠ p := fun hq => ho (hq ▸ rfl)
    rw [Owner.start, Owner.start, h.slots q hqp hlive.1 hlive.2.1]

theorem chain_iff : img'.Chain vol (o.start vol img') l ↔ img.Chain vol (o.start vol img) l := by
  rw [start_eq h ho hlive]
  have hsame : ∀ {m : List Nat}, img.Chain vol (o.start vol img) m →
      img'.Chain vol (o.start vol img) m := by
    intro m hm
    exact hm.congr fun x hx => h.table x ⟨o, hlive, ho, m, hm, hx⟩
  constructor
  · intro hl
    -- the owner had a chain before, and the table still leads along it
    rcases hw.heads o hlive ho with h0 | ⟨m, hm⟩
    · have := hl.head_valid.1
      omega
    · rwa [hl.unique hg.not_stop (hsame hm)]
  · exact hsame

theorem holds_iff : o.Holds vol img' x ↔ o.Holds vol img x := by
  rw [Owner.Holds, Owner.Holds]
  exact exists_congr fun l => and_congr_left fun _ => chain_iff hg hw h ho hlive

end

theorem protected_iff : Protected vol img' p x ↔ Protected vol img p x := by
  constructor
  · rintro ⟨o, hlive, ho, hx⟩
    have hlive' := (live_iff hg hw h ho).mp hlive
    exact ⟨o, hlive', ho, (holds_iff hg hw h ho hlive').mp hx⟩
  · rintro ⟨o, hlive, ho, hx⟩
    exact ⟨o, (live_iff hg hw h ho).mpr hlive, ho, (holds_iff hg hw h ho hlive).mpr hx⟩

/-- **The tree without `p` stays well formed.** -/
theorem wellFormedBut (hfirst : END_MARK ≤ img'.next 0) (hsecond : END_MARK ≤ img'.next 1) :
    WellFormedBut vol img' p where
  heads := by
    intro o hlive ho
    have hlive' := (live_iff hg hw h ho).mp hlive
    rcases hw.heads o hlive' ho with h0 | ⟨l, hl⟩
    · exact .inl ((start_eq h ho hlive').trans h0)
    · exact .inr ⟨l, (chain_iff hg hw h ho hlive').mpr hl⟩
  disjoint := by
    intro o o' hlive hlive' ho ho' hne x hx hx'
    have hl := (live_iff hg hw h ho).mp hlive
    have hl' := (live_iff hg hw h ho').mp hlive'
    exact hw.disjoint o o' hl hl' ho ho' hne x ((holds_iff hg hw h ho hl).mp hx)
      ((holds_iff hg hw h ho' hl').mp hx')
  first := hfirst
  second := hsecond

end Retained

/-- The entry in `p` completes a well-formed tree when it is not live, has no cluster, or has a
chain that no other owner uses. -/
theorem WellFormedBut.complete (hg : Geometry vol) (hw : WellFormedBut vol img p)
    (hp : Owner.Live vol img (some p) → startOf (img.slot p) = 0 ∨
      ∃ l, img.Chain vol (startOf (img.slot p)) l ∧ ∀ x ∈ l, ¬ Protected vol img p x) :
    WellFormed vol img where
  heads := by
    intro o hlive
    by_cases ho : o = some p
    · subst ho
      rcases hp hlive with h0 | ⟨l, hl, _⟩
      · exact .inl h0
      · exact .inr ⟨l, hl⟩
    · exact hw.heads o hlive ho
  disjoint := by
    have hside : ∀ o : Owner, Owner.Live vol img (some p) → o.Live vol img → o ≠ some p →
        ∀ x, Owner.Holds vol img (some p) x → ¬ o.Holds vol img x := by
      intro o hlive ho hne x hx hx'
      rcases hp hlive with h0 | ⟨l, hl, hfree⟩
      · obtain ⟨m, hm, _⟩ := hx
        have := hm.head_valid.1
        rw [Owner.start] at this
        omega
      · exact hfree x (hx.chain_mem hg hl) ⟨o, ho, hne, hx'⟩
    intro o o' hlive hlive' hne x hx hx'
    by_cases ho : o = some p
    · subst ho
      exact hside o' hlive hlive' (Ne.symm hne) x hx hx'
    by_cases ho' : o' = some p
    · subst ho'
      exact hside o hlive' hlive ho x hx' hx
    exact hw.disjoint o o' hlive hlive' ho ho' hne x hx hx'
  first := hw.first
  second := hw.second

end Facts

/-! ## Paths -/

section

variable (vol : FatVolume) (img : Image)

/-- Slot `p` is the one the lookup of `target` selects in the directory from `c` on. -/
def Selects (c : Nat) (target : Bytes) (p : Slot) : Prop :=
  ∃ l pre post, img.Chain vol c l ∧ vol.dirSlots l = pre ++ p :: post ∧
    (∀ q ∈ pre, checkSlot (img.slot q) target = .skip) ∧ checkSlot (img.slot p) target = .hit

/-- The lookup of `target` in the directory from `c` on finds nothing. -/
def Misses (c : Nat) (target : Bytes) : Prop :=
  ∃ l, img.Chain vol c l ∧ scanDir img target (vol.dirSlots l) = some none

/-- Every component of a path but the last selects an entry that leads to a directory of the tree
(or nothing), and `final` holds of the directory reached and the last component. -/
def Walk (final : Nat → Bytes → Prop) : Nat → List Bytes → Prop
  | c, [] => final c []
  | c, [name] => final c name
  | c, component :: rest =>
      if component = [] then Walk final c rest
      else ∀ p, Selects vol img c component p → DirCluster vol img (startOf (img.slot p)) ∧
          Walk final (startOf (img.slot p)) rest

/-- The walk of a path from the root. -/
def PathInTree (path : Bytes) (final : Nat → Bytes → Prop) : Prop :=
  Walk vol img final vol.rootCluster (pathComponents path)

end

section Paths

variable {d : Disk} {img : Image}

theorem scanDir_found {slots : List Slot}
    (h : scanDir img target slots = some (some p)) : ∃ pre post, slots = pre ++ p :: post ∧
      (∀ q ∈ pre, checkSlot (img.slot q) target = .skip) ∧
      checkSlot (img.slot p) target = .hit := by
  induction slots with
  | nil => cases h
  | cons q qs ih =>
    rw [scanDir] at h
    cases hq : checkSlot (img.slot q) target with
    | skip =>
      rw [hq] at h
      obtain ⟨pre, post, rfl, hskip, hhit⟩ := ih h
      refine ⟨q :: pre, post, rfl, ?_, hhit⟩
      intro r hr
      rcases mem_cons.mp hr with rfl | hr
      · exact hq
      · exact hskip r hr
    | stop =>
      rw [hq] at h
      cases h
    | hit =>
      rw [hq] at h
      obtain rfl : q = p := Option.some.inj (Option.some.inj h)
      exact ⟨[], qs, rfl, fun r hr => absurd hr not_mem_nil, hq⟩
    | panic =>
      rw [hq] at h
      cases h

theorem scanDir_hit {pre post : List Slot}
    (hskip : ∀ q ∈ pre, checkSlot (img.slot q) target = .skip)
    (hhit : checkSlot (img.slot p) target = .hit) :
    scanDir img target (pre ++ p :: post) = some (some p) := by
  induction pre with
  | nil => rw [nil_append, scanDir, hhit]
  | cons q qs ih =>
    rw [cons_append, scanDir, hskip q mem_cons_self]
    exact ih fun r hr => hskip r (mem_cons_of_mem _ hr)

/-- What the lookup selects is what the scan yields. -/
theorem Selects.eq_of_scan {q : Slot} (hg : Geometry vol) (hl : img.Chain vol c l)
    (h : scanDir img target (vol.dirSlots l) = some (some p)) (hq : Selects vol img c target q) :
    q = p := by
  obtain ⟨l', pre, post, hl', hslots, hskip, hhit⟩ := hq
  obtain rfl := hl.unique hg.not_stop hl'
  rw [hslots, scanDir_hit hskip hhit] at h
  exact Option.some.inj (Option.some.inj h)

/-- The slot selected in a directory of the tree is one of its live slots. -/
theorem Selects.in_tree (h : Selects vol img c target p) (hc : DirCluster vol img c) :
    DirCluster vol img p.1 ∧ p.2 < vol.slotsPerCluster ∧ LiveEntry (img.slot p) := by
  obtain ⟨l, pre, post, hl, hslots, -, hhit⟩ := h
  have hmem := mem_iff_append.mpr ⟨_, _, hslots⟩
  obtain ⟨hpl, hi⟩ := mem_dirSlots.mp hmem
  exact ⟨hc.of_chain hl _ hpl, hi, live_of_hit hhit⟩

variable (hg : Geometry vol) (hv : view vol d = img) (ht : TreeOk vol img)
include hg hv ht

/-- The lookup in a directory of the tree changes nothing and selects a slot, if any. -/
theorem findEntryInDir_sat (hc : DirCluster vol img c) (target : Bytes) :
    (vol.findEntryInDir c target d).Sat
      (fun r d' => d' = d ∧ (∀ p, r = some p → Selects vol img c target p) ∧
        (r = none → Misses vol img c target)) fun _ _ => False := by
  obtain ⟨l, hl⟩ := ht c hc
  rw [findEntryInDir_eq hg hv hl]
  cases hscan : scanDir img target (vol.dirSlots l) with
  | none => trivial
  | some r =>
    refine ⟨rfl, ?_, ?_⟩
    · intro p hp
      obtain ⟨pre, post, hslots, hskip, hhit⟩ := scanDir_found (hp ▸ hscan)
      exact ⟨l, pre, post, hl, hslots, hskip, hhit⟩
    · rintro rfl
      exact ⟨l, hl, hscan⟩

theorem resolveFrom_sat {final : Nat → Bytes → Prop} {components : List Bytes}
    (hc : DirCluster vol img c) (hw : Walk vol img final c components) :
    (resolveFrom vol c components d).Sat
      (fun r d' => d' = d ∧ DirCluster vol img r.1 ∧ final r.1 r.2) fun _ d' => d' = d := by
  induction components generalizing c with
  | nil => exact ⟨rfl, hc, hw⟩
  | cons component rest ih =>
    cases rest with
    | nil => exact ⟨rfl, hc, hw⟩
    | cons next rest =>
      rw [Walk] at hw
      rw [resolveFrom]
      by_cases hempty : component = []
      · rw [if_pos hempty] at hw ⊢
        exact ih hc hw
      · rw [if_neg hempty] at hw ⊢
        apply sat_bind
        refine (findEntryInDir_sat hg hv ht hc component).mono ?_ (fun _ _ h => h.elim)
        rintro r d' ⟨rfl, hsel, -⟩
        cases r with
        | none => exact rfl
        | some p =>
          have hp := hsel p rfl
          obtain ⟨hdir, hrest⟩ := hw p hp
          obtain ⟨l, hl⟩ := ht _ (hp.in_tree hc).1
          exact sat_bind_ok (readEntryData_shows hg hv hl.head_valid p.2) (ih hdir hrest)
      · simp
      · simp

/-- **Where a path that stays in the tree leads.** -/
theorem resolvePath_sat {final : Nat → Bytes → Prop} {path : Bytes}
    (hp : PathInTree vol img path final) :
    (resolvePath vol path d).Sat
      (fun r d' => d' = d ∧ DirCluster vol img r.1 ∧ final r.1 r.2) fun _ d' => d' = d := by
  rw [resolvePath]
  by_cases hempty : path.dropWhile (· == 0x2F) = []
  · rw [if_pos hempty]
    have hroot : final vol.rootCluster [] := by
      rw [PathInTree, pathComponents, hempty] at hp
      exact hp
    exact ⟨rfl, .root, hroot⟩
  · rw [if_neg hempty]
    exact resolveFrom_sat hg hv ht .root hp

end Paths

/-! ## Volumes that can be inspected -/

section Inspection

variable (vol : FatVolume) (img : Image) (dirs : List Nat) (owners : List (Owner × List Nat))

/-- The list has the root directory and all that its links and slots lead to. -/
def ListsDirs : Prop :=
  vol.rootCluster ∈ dirs ∧ (∀ c ∈ dirs, vol.Valid (img.next c) → img.next c ∈ dirs) ∧
    ∀ c ∈ dirs, ∀ i < vol.slotsPerCluster, Subdirectory (img.slot (c, i)) →
      startOf (img.slot (c, i)) ∈ dirs

instance : Decidable (ListsDirs vol img dirs) := instDecidableAnd

/-- The list has the owners in these directories with the clusters of their chains. -/
def ListsOwners : Prop :=
  none ∈ owners.map Prod.fst ∧
    (∀ c ∈ dirs, ∀ i < vol.slotsPerCluster, LiveEntry (img.slot (c, i)) →
      ¬ IsDot (img.slot (c, i)) → some (c, i) ∈ owners.map Prod.fst) ∧
    (∀ o ∈ owners, o.1.start vol img = 0 ∨ img.Chain vol (o.1.start vol img) o.2) ∧
    ∀ a ∈ owners, ∀ b ∈ owners, a.1 ≠ b.1 → ∀ x ∈ a.2, x ∉ b.2

instance : Decidable (ListsOwners vol img dirs owners) := instDecidableAnd

/-- Both lists, and two entries at the start of the table that no chain goes through. -/
def Inspected : Prop :=
  ListsDirs vol img dirs ∧ ListsOwners vol img dirs owners ∧
    END_MARK ≤ img.next 0 ∧ END_MARK ≤ img.next 1

instance : Decidable (Inspected vol img dirs owners) := instDecidableAnd

variable {vol img}

variable {dirs} in
theorem ListsDirs.mem (h : ListsDirs vol img dirs) (hc : DirCluster vol img c) : c ∈ dirs := by
  induction hc with
  | root => exact h.1
  | next _ hv ih => exact h.2.1 _ ih hv
  | @child p _ hi he _ ih => exact h.2.2 p.1 ih p.2 hi he

/-- **Well-formedness by inspection** of all directories and all owners. -/
theorem wellFormed_of_lists (hg : Geometry vol) (h : Inspected vol img dirs owners) :
    WellFormed vol img := by
  obtain ⟨hdirs, ⟨hnone, hsome, hchains, hapart⟩, hfat⟩ := h
  have howner : ∀ {o : Owner}, o.Live vol img → ∃ l, (o, l) ∈ owners := by
    intro o ho
    have hmem : o ∈ owners.map Prod.fst := by
      cases o with
      | none => exact hnone
      | some p => exact hsome p.1 (hdirs.mem ho.1) p.2 ho.2.1 ho.2.2.1 ho.2.2.2
    obtain ⟨⟨_, l⟩, hl, rfl⟩ := mem_map.mp hmem
    exact ⟨l, hl⟩
  -- an owner holds the clusters of its list
  have hholds : ∀ {o : Owner} {x : Nat}, o.Live vol img → o.Holds vol img x →
      ∃ l, (o, l) ∈ owners ∧ x ∈ l := by
    rintro o x ho ⟨l, hl, hx⟩
    obtain ⟨m, hm⟩ := howner ho
    have hpos : o.start vol img ≠ 0 := by
      have := hl.head_valid.1
      omega
    obtain rfl : l = m := hl.unique hg.not_stop ((hchains _ hm).resolve_left hpos)
    exact ⟨l, hm, hx⟩
  constructor
  · intro o ho
    obtain ⟨l, hl⟩ := howner ho
    exact (hchains _ hl).imp_right fun h => ⟨l, h⟩
  · intro o o' ho ho' hne x hx hx'
    obtain ⟨l, hl, hxl⟩ := hholds ho hx
    obtain ⟨m, hm, hxm⟩ := hholds ho' hx'
    exact hapart _ hl _ hm hne x hxl hxm
  · exact hfat.1
  · exact hfat.2

end Inspection

/-! ## The sample volume -/

/-- What the sample volume shows. -/
abbrev sampleImage : Image := view tinyVol sampleDisk

/-- There is only one table. -/
theorem tiny_mirrored (d : Disk) : Mirrored tinyVol d := by
  intro k hk j _
  obtain rfl : k = 0 := Nat.lt_one_iff.mp hk
  rw [Nat.zero_mul, Nat.add_zero]

/-- The volume is evaluated once; the facts about it follow. -/
theorem sample_inspected : Inspected tinyVol sampleImage [2, 4] [(none, [2]), (some (2, 1), [3]),
      (some (2, 2), [4]), (some (2, 3), [5]), (some (4, 2), [6])] ∧
    (∀ c ∈ [2, 3, 4, 5, 6], sampleImage.Chain tinyVol c [c]) ∧
    Subdirectory (sampleImage.slot (2, 2)) ∧ startOf (sampleImage.slot (2, 2)) = 4 := by
  decide +kernel

theorem sample_chain {c : Nat} (hc : c ∈ [2, 3, 4, 5, 6]) : sampleImage.Chain tinyVol c [c] :=
  sample_inspected.2.1 c hc

theorem sample_dirCluster (c : Nat) : DirCluster tinyVol sampleImage c ↔ c ∈ [2, 4] := by
  obtain ⟨⟨hdirs, -⟩, -, hdir, hstart⟩ := sample_inspected
  refine ⟨hdirs.mem, fun hc => ?_⟩
  have hA : DirCluster tinyVol sampleImage 4 :=
    hstart ▸ .child (p := (2, 2)) .root (by decide) hdir (hstart ▸ by decide)
  simp only [mem_cons, not_mem_nil, or_false] at hc
  rcases hc with rfl | rfl
  · exact .root
  · exact hA

theorem sample_wellFormed : WellFormed tinyVol sampleImage :=
  wellFormed_of_lists _ _ tiny_geometry sample_inspected.1

/-- A root directory with the empty file `AB` and the directories `A` and `D`; `D` holds a file `G`.
-/
def secondDisk : Disk := diskOf (0x0FFFFFF8 :: replicate 5 0x0FFFFFFF)
  [fileSlot [0x41, 0x42] 0 0 ++ dirSlot [0x41] 3 ++ dirSlot [0x44] 4, dotSlots 3,
    dotSlots 4 ++ fileSlot [0x47] 5 1]

/-- What it shows. -/
abbrev secondImage : Image := view tinyVol secondDisk

theorem second_inspected : Inspected tinyVol secondImage [2, 3, 4] [(none, [2]), (some (2, 0), []),
      (some (2, 1), [3]), (some (2, 2), [4]), (some (4, 2), [5])] ∧
    (∀ c ∈ [2, 3, 4], secondImage.Chain tinyVol c [c]) ∧
    ∀ i ∈ [1, 2], i < tinyVol.slotsPerCluster ∧ Subdirectory (secondImage.slot (2, i)) ∧
      startOf (secondImage.slot (2, i)) = i + 2 ∧
      tinyVol.Valid (startOf (secondImage.slot (2, i))) := by
  decide +kernel

/-- Its directories have one cluster each. -/
theorem second_chain {c : Nat} (hc : c ∈ [2, 3, 4]) : secondImage.Chain tinyVol c [c] :=
  second_inspected.2.1 c hc

theorem second_dirCluster (c : Nat) : DirCluster tinyVol secondImage c ↔ c ∈ [2, 3, 4] := by
  obtain ⟨⟨hdirs, -⟩, -, hchildren⟩ := second_inspected
  have hchild : ∀ i ∈ [1, 2], DirCluster tinyVol secondImage (i + 2) := by
    intro i hi
    obtain ⟨hslot, hdir, hstart, hvalid⟩ := hchildren i hi
    exact hstart ▸ .child (p := (2, i)) .root hslot hdir hvalid
  refine ⟨hdirs.mem, fun hc => ?_⟩
  simp only [mem_cons, not_mem_nil, or_false] at hc
  rcases hc with rfl | rfl | rfl
  · exact .root
  · exact hchild 1 (by decide)
  · exact hchild 2 (by decide)

theorem second_wellFormed : WellFormed tinyVol secondImage :=
  wellFormed_of_lists _ _ tiny_geometry second_inspected.1

end PlanckOS.Fat32
