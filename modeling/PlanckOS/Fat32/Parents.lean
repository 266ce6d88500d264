import PlanckOS.Fat32.DirNames
import PlanckOS.Fat32.Resolve

/-!
# Directories reached by their names

`WayTo` follows a list of names down the tree: each lookup finds the entry of that name, and it is a
subdirectory. `resolve_path` then goes the same way, and an entry added in the directory at the end
does not change it (`WayTo.agree`).

`Beside` are the images that differ in one slot and in clusters that were free. When a vacant slot
got an entry, the names of before stand for what they stood for (`Beside.denotes`), and the new name
for the new entry (`Beside.found`).
-/

set_option autoImplicit false

namespace PlanckOS.Fat32

open Lib.Fallible FatVolume List

variable {img img' : Image} {name : Bytes} {p q : Slot} {e : Entry} {vol : FatVolume}
  {c c' n new : Nat} {d : Disk}

/-! ## The way down -/

/-- The lookups of the names find the subdirectories with these names, one in the other, from `c` to
`c'`. -/
inductive WayTo (vol : FatVolume) (img : Image) : Nat → List Bytes → Nat → Prop
  | done (c : Nat) : WayTo vol img c [] c
  | step {c c' : Nat} {l : List Nat} {p : Slot} {name : Bytes} {rest : List Bytes}
      (hne : name ≠ []) (hl : img.Chain vol c l)
      (hscan : scanDir img name (vol.dirSlots l) = some (some p))
      (hp : namedSlot img name (vol.dirSlots l) = some p) (hd : Subdirectory (img.slot p))
      (hv : vol.Valid (startOf (img.slot p))) (h : WayTo vol img (startOf (img.slot p)) rest c') :
      WayTo vol img c (name :: rest) c'

/-- The directory from `c` on has the entries `.` and `..`. -/
def HasDots (vol : FatVolume) (img : Image) (c : Nat) : Prop :=
  ∀ dots ∈ [[0x2E], [0x2E, 0x2E]], ∃ p, Denotes vol img c dots p ∧ IsDirEntry (img.slot p)

/-- Every subdirectory of the tree has them. -/
def DotsKept (vol : FatVolume) (img : Image) : Prop :=
  ∀ p : Slot, DirCluster vol img p.1 → p.2 < vol.slotsPerCluster → Subdirectory (img.slot p) →
    HasDots vol img (startOf (img.slot p))

section Scan

variable {slots : List Slot} {b t : UInt8}

theorem head_of_foldCase {xs ys : Bytes} (hupper : asciiLower t = t)
    (hlower : ¬ (0x61 ≤ t ∧ t ≤ 0x7A)) (h : foldCase xs = foldCase (t :: ys)) :
    ∃ zs, xs = t :: zs := by
  cases xs with
  | nil => cases h
  | cons x zs =>
    rw [foldCase, foldCase, map_cons, map_cons, hupper] at h
    exact ⟨zs, by rw [eq_of_asciiLower_eq hlower (cons.inj h).1]⟩

/-- The first byte of a name, unless it is the dot in front of an extension. -/
theorem decodedName_head {bytes : Bytes} (hb : b ≠ 0x2E) (h : decodedName e = b :: bytes) :
    e 0 = b := by
  rw [decodedName] at h
  split at h
  · rw [nameRun] at h
    split at h
    · exact (cons.inj h).1
    · exact absurd (cons.inj h).1.symm hb
  · rw [nameRun] at h
    split at h
    · exact (cons.inj h).1
    · cases h

/-- A name that starts with the byte of deleted slots is never found. -/
theorem not_named_deleted (hlive : LiveEntry e) (h : Named name e) : name.head? ≠ some 0xE5 := by
  intro hhead
  obtain ⟨ys, rfl⟩ : ∃ ys, name = 0xE5 :: ys := by
    cases name with
    | nil => cases hhead
    | cons b ys => exact ⟨ys, by rw [Option.some.inj hhead]⟩
  obtain ⟨zs, hzs⟩ := head_of_foldCase (by decide) (by decide) h
  exact hlive.2.2 (decodedName_head (by decide) hzs)

theorem head_of_denotes (h : Denotes vol img c name p) : name.head? ≠ some 0xE5 := by
  obtain ⟨l, -, hp⟩ := h
  obtain ⟨-, hlive, hnamed⟩ := namedSlot_some hp
  exact not_named_deleted hlive hnamed

theorem namedSlot_congr (h : ∀ r ∈ slots, img'.slot r = img.slot r) :
    namedSlot img' name slots = namedSlot img name slots := by
  induction slots with
  | nil => rfl
  | cons r rs ih =>
    rw [namedSlot, namedSlot, h r mem_cons_self, ih fun r' hr' => h r' (mem_cons_of_mem _ hr')]

/-- A name is found as before when a vacant slot got an entry with another name. -/
theorem namedSlot_added (hsame : ∀ r ∈ slots, r ≠ q → img'.slot r = img.slot r)
    (hvacant : Vacant (img.slot q)) (hother : ¬ Named name (img'.slot q))
    (hused : ¬ EndMarker (img'.slot q)) (h : namedSlot img name slots = some p) :
    namedSlot img' name slots = some p := by
  induction slots with
  | nil => cases h
  | cons r rs ih =>
    have hrest := ih fun r' hr' => hsame r' (mem_cons_of_mem _ hr')
    rw [namedSlot] at h ⊢
    by_cases hrq : r = q
    · subst hrq
      rw [if_neg hused, if_neg fun hboth => hother hboth.2]
      split at h
      · cases h
      · rw [if_neg fun hboth => hvacant.not_live hboth.1] at h
        exact hrest h
    · rw [hsame r mem_cons_self hrq]
      split at h
      · cases h
      next hend =>
        rw [if_neg hend]
        split at h
        next hboth => rwa [if_pos hboth]
        next hboth =>
          rw [if_neg hboth]
          exact hrest h

/-- The first vacant slot is found by its new name, if nothing was found before. -/
theorem found_new {pre post : List Slot} (hne : name ≠ [])
    (hmiss : scanDir img name (pre ++ q :: post) = some none)
    (hpre : ∀ r ∈ pre, ¬ Vacant (img.slot r)) (hsame : ∀ r ∈ pre, img'.slot r = img.slot r)
    (hlive : LiveEntry (img'.slot q)) (hnamed : Named name (img'.slot q)) :
    scanDir img' name (pre ++ q :: post) = some (some q) ∧
      namedSlot img' name (pre ++ q :: post) = some q := by
  have hskip := skip_of_missed hmiss hpre
  have hhit := hnamed.checkSlot_hit hne hlive
  constructor
  · refine scanDir_hit (fun r hr => ?_) hhit
    rw [hsame r hr]
    exact hskip r hr
  · clear hmiss
    induction pre with
    | nil => rw [nil_append, namedSlot, if_neg hlive.2.1, if_pos ⟨hlive, hnamed⟩]
    | cons r rs ih =>
      have hr := hskip r mem_cons_self
      have hend : ¬ EndMarker (img.slot r) := fun hmark => hpre r mem_cons_self (.inl hmark)
      have hother : ¬ (LiveEntry (img.slot r) ∧ Named name (img.slot r)) := by
        rintro ⟨hl, hn⟩
        rw [hn.checkSlot_hit hne hl] at hr
        cases hr
      rw [cons_append, namedSlot, hsame r mem_cons_self, if_neg hend, if_neg hother]
      exact ih (fun r hr => hpre r (mem_cons_of_mem _ hr))
        (fun r hr => hsame r (mem_cons_of_mem _ hr))
        fun r hr => hskip r (mem_cons_of_mem _ hr)

end Scan

section Walk

variable {c'' : Nat}
  {names rest : List Bytes}

/-- The walk of `resolve_path` goes the same way. -/
theorem WayTo.resolveFrom_eq (hg : Geometry vol) (hv : view vol d = img)
    (h : WayTo vol img c names c') (hrest : rest ≠ []) :
    resolveFrom vol c (names ++ rest) d = resolveFrom vol c' rest d := by
  induction h with
  | done c => rfl
  | step hne hl hscan _ _ _ _ ih =>
    rw [cons_append, resolveFrom_scan hg hv hne (by simp [hrest]) hl hscan]
    exact ih

theorem WayTo.depth (hd : Depth vol img c n) (h : WayTo vol img c names c') :
    Depth vol img c' (n + names.length) := by
  induction h generalizing n with
  | done c => exact hd
  | @step c c' l p name rest _ hl _ hp he hv _ ih =>
    have := ih (.child hd hl (namedSlot_some hp).1 he hv)
    rwa [length_cons, Nat.add_comm rest.length, ← Nat.add_assoc]

/-- The way through the first names. -/
theorem WayTo.split (h : WayTo vol img c (names ++ rest) c') :
    ∃ m, WayTo vol img c names m ∧ WayTo vol img m rest c' := by
  induction names generalizing c with
  | nil => exact ⟨c, .done c, h⟩
  | cons name names ih =>
    cases h with
    | step hne hl hscan hp hd hv h =>
      obtain ⟨m, hm, hrest⟩ := ih h
      exact ⟨m, .step hne hl hscan hp hd hv hm, hrest⟩

theorem WayTo.namesDirs (h : WayTo vol img c names c') : NamesDirs vol img c names c' := by
  induction h with
  | done c => exact .nil c
  | step hne hl _ hp hd _ _ ih => exact .step hne ⟨_, hl, hp⟩ hd ih

/-- **A change in the directory at the end of the way does not change the way**, nor one in a
directory further down. -/
theorem WayTo.agree {m e : Nat} (hg : Geometry vol) (hw : WellFormed vol img)
    (hd : Depth vol img c n) (h : WayTo vol img c names c') (he : Depth vol img e m)
    (hle : n + names.length ≤ m) (hagree : AgreeBut vol img img' e) :
    WayTo vol img' c names c' := by
  induction h generalizing n with
  | done c => exact .done c
  | @step c c' l p name rest hne hl hscan hp hsub hv h ih =>
    rw [length_cons] at hle
    have hce : c ≠ e := by
      rintro rfl
      have := hd.unique hg hw he
      omega
    obtain ⟨hl', hsame⟩ := hagree c n hd hce l hl
    have hslot := hsame p (namedSlot_some hp).1
    have hrest := ih (hd.child hl (namedSlot_some hp).1 hsub hv) (by omega)
    rw [← hslot] at hrest hsub hv
    exact .step hne hl' ((scanDir_congr fun r hr => by rw [hsame r hr]).trans hscan)
      ((namedSlot_congr hsame).trans hp) hsub hv hrest

/-- The last step of the way. -/
theorem WayTo.last (h : WayTo vol img c (names ++ [name]) c') :
    ∃ a l p, WayTo vol img c names a ∧ img.Chain vol a l ∧
      scanDir img name (vol.dirSlots l) = some (some p) ∧
      namedSlot img name (vol.dirSlots l) = some p ∧ Subdirectory (img.slot p) ∧
      startOf (img.slot p) = c' := by
  obtain ⟨a, hnames, hlast⟩ := h.split
  cases hlast with
  | step _ hl hscan hp hd _ hdone =>
    cases hdone
    exact ⟨a, _, _, hnames, hl, hscan, hp, hd, rfl⟩

theorem NamesDirs.unique (hg : Geometry vol) (h : NamesDirs vol img c names c')
    (h' : NamesDirs vol img c names c'') : c' = c'' := by
  induction h with
  | nil c =>
    cases h'
    rfl
  | skip _ ih =>
    cases h' with
    | skip h' => exact ih h'
    | step hne => exact absurd rfl hne
  | step hne hp _ _ ih =>
    cases h' with
    | skip => exact absurd rfl hne
    | step _ hq _ h' =>
      obtain rfl := hp.unique hg hq
      exact ih h'

end Walk

/-! ## New entries -/

/-- A name of up to eight bytes without a dot. -/
structure BaseName (name : Bytes) : Prop where
  plain : Plain name
  ne_nil : name ≠ []
  short : name.length ≤ 8

theorem BaseName.shortName (h : BaseName name) : ShortName name := .base h.plain h.ne_nil h.short

/-- `f_open` stores the name. -/
theorem decodedName_newEntry (h : ShortName name) (e : Entry) (new : Nat) :
    decodedName (newEntry e name new) = name :=
  (decodedName_congr fun _ hk => newEntry_of_lt e name new hk).trans (h.decoded e)

/-- `f_mkdir` stores the name, and reads as one with the extension that the slot had. -/
theorem decodedName_newDirEntry (h : BaseName name) (hext : nameRun e 8 3 = [])
    (new : Nat) : decodedName (newDirEntry e name new) = name := by
  have hbase : nameRun (storeDirName e 0 name) 0 8 = name := by
    have hnone : ([] : Bytes) = [] ∨ [] = 0x2E :: ([] : Bytes) := .inl rfl
    have hrun := storeDirName_run e h.plain h.short hnone
    rwa [append_nil] at hrun
  have hrest : nameRun (storeDirName e 0 name) 8 3 = [] := by
    rw [← hext]
    refine nameRun_congr fun k hk _ => ?_
    obtain ⟨i, rfl⟩ := Nat.exists_eq_add_of_le hk
    exact storeDirName_ext_none e h.plain h.short i
  rw [decodedName_congr fun k hk => newDirEntry_of_lt e name new hk,
    decodedName_of_runs hbase hrest, if_pos rfl]

/-- The images differ only in slot `q` and in clusters that were free. -/
structure Beside (vol : FatVolume) (img : Image) (q : Slot) (img' : Image) : Prop where
  next : ∀ x, img.next x ≠ 0 → img'.next x = img.next x
  slots : ∀ r : Slot, img.next r.1 ≠ 0 → r ≠ q → r.2 < vol.slotsPerCluster →
    img'.slot r = img.slot r

theorem Added.beside (h : Added vol img new q img') : Beside vol img q img' where
  next _ hx := h.next_eq fun heq => hx (heq ▸ h.fresh)
  slots r hr hrq hi := h.slots r (fun heq => hr (heq ▸ h.fresh)) hrq hi

namespace Beside

variable {l : List Nat}

section

variable (h : Beside vol img q img')
include h

theorem chain (hl : img.Chain vol c l) : img'.Chain vol c l :=
  hl.congr fun x hx => h.next x (chain_next_ne_zero hl hx)

theorem chain_slot (hl : img.Chain vol c l) :
    ∀ r ∈ vol.dirSlots l, r ≠ q → img'.slot r = img.slot r := by
  intro r hr hrq
  obtain ⟨hr1, hr2⟩ := mem_dirSlots.mp hr
  exact h.slots r (chain_next_ne_zero hl hr1) hrq hr2

omit h in
/-- Of the directories only the one with the slot differs. -/
theorem agreeBut (hg : Geometry vol) (hw : WellFormed vol img)
    (h : Beside vol img q img') (hc : Depth vol img c n) (hl : img.Chain vol c l)
    (hq : q ∈ vol.dirSlots l) : AgreeBut vol img img' c := by
  intro b k hb hbc m hm
  refine ⟨h.chain hm, fun r hr => h.chain_slot hm r hr ?_⟩
  rintro rfl
  exact (hb.dirHead hg).disjoint hw (hc.dirHead hg) hbc hm hl _ (mem_dirSlots.mp hr).1
    (mem_dirSlots.mp hq).1

/-- **Other names stand for what they stood for.** -/
theorem denotes (hvacant : Vacant (img.slot q)) (hother : ¬ Named name (img'.slot q))
    (hused : ¬ EndMarker (img'.slot q)) (hp : Denotes vol img c name p) :
    Denotes vol img' c name p ∧ img'.slot p = img.slot p := by
  obtain ⟨l, hl, hp⟩ := hp
  have hsame := h.chain_slot hl
  obtain ⟨hmem, hlive, -⟩ := namedSlot_some hp
  refine ⟨⟨l, h.chain hl, namedSlot_added hsame hvacant hother hused hp⟩, hsame p hmem ?_⟩
  rintro rfl
  exact hvacant.not_live hlive

/-- `.` and `..` stay where they are. -/
theorem hasDots (hvacant : Vacant (img.slot q)) (hname : Named name (img'.slot q))
    (hplain : Plain name) (hused : ¬ EndMarker (img'.slot q)) (hdots : HasDots vol img c) :
    HasDots vol img' c := by
  intro dots hmem
  obtain ⟨p, hp, hd⟩ := hdots dots hmem
  have hother : ¬ Named dots (img'.slot q) := by
    intro hboth
    obtain ⟨ys, rfl⟩ : ∃ ys, dots = 0x2E :: ys := by
      simp only [mem_cons, not_mem_nil, or_false] at hmem
      rcases hmem with rfl | rfl <;> exact ⟨_, rfl⟩
    obtain ⟨zs, rfl⟩ := head_of_foldCase (by decide) (by decide) (hname.symm.trans hboth)
    exact (hplain _ mem_cons_self).2.1 rfl
  obtain ⟨hp', hslot⟩ := h.denotes hvacant hother hused hp
  exact ⟨p, hp', hslot ▸ hd⟩

end

/-- **The new name stands for the new entry**, and the lookup finds it. -/
theorem found (hg : Geometry vol) (h : Beside vol img q img') (hne : name ≠ [])
    (hfirst : FirstVacant vol img c q) (hmiss : Misses vol img c name)
    (hlive : LiveEntry (img'.slot q)) (hnamed : Named name (img'.slot q)) :
    ∃ l, img'.Chain vol c l ∧ scanDir img' name (vol.dirSlots l) = some (some q) ∧
      namedSlot img' name (vol.dirSlots l) = some q := by
  obtain ⟨l, pre, post, hl, hslots, hpre, hvacant⟩ := hfirst
  obtain ⟨l', hl', hscan⟩ := hmiss
  obtain rfl := hl.unique hg.not_stop hl'
  refine ⟨l, h.chain hl, ?_⟩
  rw [hslots] at hscan ⊢
  refine found_new hne hscan hpre (fun r hr => ?_) hlive hnamed
  refine h.chain_slot hl r (hslots ▸ mem_append_left _ hr) ?_
  rintro rfl
  exact hpre r hr hvacant

end Beside

/-! ## Beneath a regular file -/

/-- A cluster that was free in `img₀` and is the only one of its chain now. -/
structure Stray (vol : FatVolume) (img₀ img : Image) (x : Nat) : Prop where
  valid : vol.Valid x
  free : img₀.next x = 0
  last : END_MARK ≤ img.next x

/-- Besides slot `q`, which holds `e`, the image differs from `img₀` in clusters that were free. -/
structure Pinned (vol : FatVolume) (img₀ : Image) (q : Slot) (e : Entry) (img : Image) :
    Prop extends
    Beside vol img₀ q img where
  place : img₀.next q.1 ≠ 0
  index : q.2 < vol.slotsPerCluster
  entry : img.slot q = e

/-- And the entry in slot `q`, and where these clusters hold one that the lookup of one of the names
finds, leads to one of these clusters. -/
structure Beneath (vol : FatVolume) (names : List Bytes) (img₀ : Image) (q : Slot) (e : Entry)
    (img : Image) : Prop extends Pinned vol img₀ q e img where
  file : Stray vol img₀ img (startOf e)
  hits : ∀ r : Slot, vol.Valid r.1 → img₀.next r.1 = 0 → r.2 < vol.slotsPerCluster →
    ∀ name ∈ names, checkSlot (img.slot r) name = .hit → Stray vol img₀ img (startOf (img.slot r))

section Strays

variable {img₀ : Image} {x : Nat}
  {names inner : List Bytes} {path last : Bytes}

theorem Stray.chain (h : Stray vol img₀ img x) : img.Chain vol x [x] := .last h.valid h.last

theorem Stray.of_next (h : Stray vol img₀ img x)
    (hnext : img.next x ≠ 0 → img'.next x = img.next x) : Stray vol img₀ img' x := by
  refine ⟨h.valid, h.free, ?_⟩
  rw [hnext]
  · exact h.last
  · have hlast := h.last
    rw [END_MARK] at hlast
    omega

namespace Pinned

variable (h : Pinned vol img₀ q e img)
include h

theorem free {y : Nat} (hy : img.next y = 0) : img₀.next y = 0 := by
  by_contra hne
  exact hne ((h.next y hne).symm.trans hy)

/-- An entry in a cluster that was free changes nothing else. -/
theorem added (hadd : Added vol img new p img') (hp : img₀.next p.1 = 0) :
    Pinned vol img₀ q e img' := by
  have hne : ∀ r : Slot, img₀.next r.1 ≠ 0 → r ≠ p := by
    rintro r hr rfl
    exact hr hp
  refine ⟨⟨fun y hy => ?_, fun r hr hrq hi => ?_⟩, h.place, h.index, ?_⟩
  · rw [hadd.beside.next y (by rwa [h.next y hy]), h.next y hy]
  · rw [hadd.beside.slots r (by rwa [h.next _ hr]) (hne r hr) hi, h.slots r hr hrq hi]
  · have hq : img.next q.1 ≠ 0 := by
      rw [h.next _ h.place]
      exact h.place
    rw [hadd.beside.slots q hq (hne q h.place) h.index, h.entry]

theorem spares (hs : Spares img img') : Pinned vol img₀ q e img' := by
  have hslot : ∀ r : Slot, img₀.next r.1 ≠ 0 → img'.slot r = img.slot r := by
    intro r hr
    rw [Image.slot, Image.slot, (hs r.1 (by rwa [h.next _ hr])).2]
  refine ⟨⟨fun y hy => ?_, fun r hr hrq hi => ?_⟩, h.place, h.index, ?_⟩
  · rw [hs.next_eq (by rwa [h.next y hy]), h.next y hy]
  · rw [hslot r hr, h.slots r hr hrq hi]
  · rw [hslot q h.place, h.entry]

end Pinned

/-- A lookup below the file stays there. -/
theorem Beneath.resolveFrom_sat (hg : Geometry vol) (hv : view vol d = img)
    (h : Beneath vol names img₀ q e img) (hx : Stray vol img₀ img x)
    (hinner : ∀ name ∈ inner, name ≠ [] ∧ name ∈ names) :
    (resolveFrom vol x (inner ++ [last]) d).Sat
      (fun r d' => d' = d ∧ Stray vol img₀ img r.1) fun _ d' => d' = d := by
  induction inner generalizing x with
  | nil => exact ⟨rfl, hx⟩
  | cons name inner ih =>
    obtain ⟨hne, hmem⟩ := hinner name mem_cons_self
    have hfind := findEntryInDir_eq hg hv hx.chain name
    cases hscan : scanDir img name (vol.dirSlots [x]) with
    | none =>
      rw [hscan] at hfind
      rw [cons_append, resolveFrom_fault hne (by simp) hfind]
      trivial
    | some found =>
      cases found with
      | none =>
        rw [hscan] at hfind
        rw [cons_append, resolveFrom_missing hne (by simp) hfind]
        rfl
      | some p =>
        rw [cons_append, resolveFrom_scan hg hv hne (by simp) hx.chain hscan]
        obtain ⟨pre, post, hslots, -, hhit⟩ := scanDir_found hscan
        obtain ⟨hp1, hp2⟩ := mem_dirSlots.mp (hslots ▸ mem_append_right pre mem_cons_self)
        rw [mem_singleton] at hp1
        refine ih (h.hits p (hp1 ▸ hx.valid) (hp1 ▸ hx.free) hp2 name hmem hhit) ?_
        exact fun other hother => hinner other (mem_cons_of_mem _ hother)

/-- What `f_open` does for a new file in a chain adds an entry, and leaves the cluster of the file
as it was. -/
theorem added_of_written (hg : Geometry vol) (hv : vol.Valid new)
    (hfree : img.next new = 0) (hwritten : SlotWritten vol (img.mark new) img' p)
    (hslot : img'.slot p = newEntry (img.slot p) last new) : Added vol img new p img' := by
  have hlt := hg.lt_end hv
  rw [END_MARK] at hlt
  refine ⟨hv, hfree, hwritten.fat, fun r _ hr hi => hwritten.slots r hr hi, ?_, fun hsub => ?_⟩
  · rw [hslot, newEntry_start _ _ (by omega)]
  · rw [hslot] at hsub
    exact absurd hsub.2.1 (newEntry_regular _ _ _)

/-- A cluster taken for a file without an entry. -/
theorem Beneath.mark (h : Beneath vol names img₀ q e img) (hfree : img.next new = 0) :
    Beneath vol names img₀ q e (img.mark new) := by
  have hspares := Spares.mark hfree
  refine ⟨h.spares hspares, h.file.of_next hspares.next_eq, fun r hv hr hi name hmem hhit => ?_⟩
  have hslot : (img.mark new).slot r = img.slot r := rfl
  rw [hslot] at hhit ⊢
  exact (h.hits r hv hr hi name hmem hhit).of_next hspares.next_eq

/-- An entry below the file, made by `f_open`. -/
theorem Beneath.created (hg : Geometry vol) (h : Beneath vol names img₀ q e img)
    (hp : img₀.next p.1 = 0) (hv : vol.Valid new) (hfree : img.next new = 0)
    (hwritten : SlotWritten vol (img.mark new) img' p)
    (hslot : img'.slot p = newEntry (img.slot p) last new) : Beneath vol names img₀ q e img' := by
  have hadd := added_of_written hg hv hfree hwritten hslot
  have hnext := fun y => hadd.beside.next y
  refine ⟨h.added hadd hp, h.file.of_next (hnext _), fun r hrv hr hi name hmem hhit => ?_⟩
  by_cases hrp : r = p
  · subst hrp
    rw [hadd.start]
    exact ⟨hv, h.free hfree, hadd.next_new⟩
  · have hsame : img'.slot r = img.slot r := hwritten.slots r hrp hi
    rw [hsame] at hhit ⊢
    exact (h.hits r hrv hr hi name hmem hhit).of_next (hnext _)

variable (hg : Geometry vol) (hs : Shows vol d img) (h : Beneath vol names img₀ q e img)
  (hinner : ∀ name ∈ inner, name ≠ [] ∧ name ∈ names)
  (hpath : resolvePath vol path d = resolveFrom vol (startOf e) (inner ++ [last]) d)
include hg hs h hinner hpath

/-- **`f_open` below the file** keeps all that was in use. -/
theorem Beneath.fOpen_sat : (fOpen (some vol) path (FA_WRITE ||| FA_CREATE_NEW) d).Leaves
      (fun d' => ∃ img', Shows vol d' img' ∧ Beneath vol names img₀ q e img') := by
  have hsame : ∃ img', Shows vol d img' ∧ Beneath vol names img₀ q e img' := ⟨img, hs, h⟩
  rw [fOpen, withVol, openVol]
  apply sat_bind
  rw [hpath]
  refine (h.resolveFrom_sat hg hs.view_eq h.file hinner).mono ?_ ?_
  · rintro ⟨a, name⟩ d₁ ⟨rfl, ha⟩
    apply sat_bind
    rw [findEntryInDir_eq hg hs.view_eq ha.chain]
    cases scanDir img name (vol.dirSlots [a]) with
    | none => trivial
    | some found =>
      cases found with
      | some p =>
        have hexists : (openExisting vol (FA_WRITE ||| FA_CREATE_NEW) p.1 p.2 : DevOp Disk File) =
            Op.throw .exists := if_pos (by decide)
        simp only [lookupOutcome, Outcome.Sat, hexists, Op.throw]
        exact hsame
      | none =>
        refine (openMissing_chain hg hs ha.chain name).sat.mono ?_ ?_
        · rintro file d' ⟨new, p, img', -, hv, hfree, hwritten, hs', hfirst, hslot⟩
          have hp : p.1 = a :=
            mem_singleton.mp (mem_dirSlots.mp (hfirst.mem hg ha.chain)).1
          exact ⟨img', hs', h.created hg (hp ▸ ha.free) hv hfree hwritten hslot⟩
        · rintro err d' (⟨rfl, -⟩ | ⟨new, hfree, hs', -⟩)
          · exact hsame
          · exact ⟨_, hs', h.mark hfree⟩
  · rintro err d₁ rfl
    exact hsame

/-- **`f_mkdir` below the file** does so too. -/
theorem Beneath.fMkdir_sat : (fMkdir (some vol) path d).Leaves
      (fun d' => ∃ img', Shows vol d' img' ∧ Pinned vol img₀ q e img') := by
  have hsame : ∃ img', Shows vol d img' ∧ Pinned vol img₀ q e img' := ⟨img, hs, h.toPinned⟩
  rw [fMkdir, withVol]
  apply sat_bind
  rw [hpath]
  refine (h.resolveFrom_sat hg hs.view_eq h.file hinner).mono ?_ ?_
  · rintro ⟨a, name⟩ d₁ ⟨rfl, ha⟩
    simp only
    split
    · exact hsame
    split
    · exact hsame
    apply sat_bind
    rw [findEntryInDir_eq hg hs.view_eq ha.chain]
    cases scanDir img name (vol.dirSlots [a]) with
    | none => trivial
    | some found =>
      cases found with
      | some p => exact hsame
      | none =>
        refine (mkdirAt_chain hg hs ha.chain name).sat.mono ?_ ?_
        · rintro - d' ⟨new, p, img', hs', hfirst, hadd, -⟩
          have hp : p.1 = a :=
            mem_singleton.mp (mem_dirSlots.mp (hfirst.mem hg ha.chain)).1
          exact ⟨img', hs', h.added hadd (hp ▸ ha.free)⟩
        · rintro err d' ⟨⟨img', hs', hspares⟩, -⟩
          exact ⟨img', hs', h.spares hspares⟩
  · rintro err d₁ rfl
    exact hsame

end Strays

end PlanckOS.Fat32
