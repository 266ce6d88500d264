import PlanckOS.Fat32.Changes
import PlanckOS.Fat32.Isolation
import PlanckOS.Fat32.Paths

/-!
# Names in a directory

`f_open` with `FA_CREATE_NEW`, `f_mkdir` and `f_rename` look the new name up first and write it in
the 8.3 form, each in its own way. The names in a directory stay different as long as the name read
back from the slot starts with the name that was looked up (`Storable`, `StorableDir`): whoever had
the same stored name would have been found (`names_stay_unique`). A name that does not fit is cut
when it is stored, and two such names can be stored as one (`truncated_names_collide`).

A second thing keeps the lookup honest: it stops at the first end marker, so no entry may lie behind
one (`Ended`). The operations preserve this, because a new entry goes to the first vacant slot.
-/

set_option autoImplicit false

namespace PlanckOS.Fat32

open Lib.Fallible List
open Lib.Transition FatVolume

variable {vol : FatVolume} {img img' : Image} {name tail : Bytes} {q p : Slot} {e e' : Entry}
  {j n c k : Nat}

/-! ## Directories with different names -/

/-- The live entries in the slots have pairwise different names. -/
def UniqueNames (img : Image) (slots : List Slot) : Prop :=
  slots.Pairwise fun p q => LiveEntry (img.slot p) → LiveEntry (img.slot q) →
    foldCase (decodedName (img.slot p)) ≠ foldCase (decodedName (img.slot q))
  deriving Decidable

/-- No live entry lies behind a slot at which the lookup stops. -/
def Ended (img : Image) (slots : List Slot) : Prop :=
  slots.Pairwise fun p q => ¬ Hidden (img.slot p) → EndMarker (img.slot p) →
    ¬ LiveEntry (img.slot q)
  deriving Decidable

/-- The directory from `c` on has different names, all of them in front of the end marker. -/
def Orderly (vol : FatVolume) (img : Image) (c : Nat) : Prop :=
  ∀ l, img.Chain vol c l → UniqueNames img (vol.dirSlots l) ∧ Ended img (vol.dirSlots l)

/-- The name `f_open` and `f_rename` store starts with the one they were given. -/
def Storable (name : Bytes) : Prop :=
  ∀ e : Entry, StartsWith name (Buf.store e 0 (encodeName name))

/-- The same for `f_mkdir`. -/
def StorableDir (name : Bytes) : Prop := ∀ e : Entry, StartsWith name (storeDirName e 0 name)

section Slots

variable {slots : List Slot} {target : Bytes}
  {l : List Nat} {b : UInt8}

theorem dirSlots_nodup (h : l.Nodup) : (vol.dirSlots l).Nodup := by
  rw [dirSlots, nodup_flatMap]
  constructor
  · intro c _
    exact List.Nodup.map (fun i j hij => (Prod.mk.inj hij).2) nodup_range'
  · refine h.imp ?_
    intro c c' hne p hp hp'
    exact hne ((mem_clusterSlots.mp hp).1.symm.trans (mem_clusterSlots.mp hp').1)

theorem nameRun_congr (h : ∀ k, j ≤ k → k < j + n → e' k = e k) :
    nameRun e' j n = nameRun e j n := by
  induction n generalizing j with
  | zero => rfl
  | succ n ih =>
    rw [nameRun, nameRun, h j le_rfl (by omega), ih fun k hk hk' => h k (by omega) (by omega)]

/-- The decoded name depends on the 11 name bytes. -/
theorem decodedName_congr (h : ∀ k < 0x0B, e' k = e k) : decodedName e' = decodedName e := by
  rw [decodedName, decodedName, nameRun_congr fun k _ hk => h k (by omega),
    nameRun_congr fun k _ hk => h k (by omega), h 8 (by decide)]

theorem StartsWith.congr (h : ∀ k < 0x0B, e' k = e k) (hs : StartsWith target e) :
    StartsWith target e' := by
  rw [StartsWith, decodedName_congr h]
  exact hs

theorem nameRun_ne (hb : b ∈ nameRun e j n) : b ≠ 0x20 ∧ b ≠ 0 := by
  induction n generalizing j with
  | zero => exact absurd hb not_mem_nil
  | succ n ih =>
    rw [nameRun] at hb
    split at hb
    next hj =>
      rcases mem_cons.mp hb with rfl | hb
      · exact hj
      · exact ih hb
    next => exact absurd hb not_mem_nil

/-- A decoded name has no space and no NUL byte. -/
theorem decodedName_ne (hb : b ∈ decodedName e) : b ≠ 0x20 ∧ b ≠ 0 := by
  rw [decodedName] at hb
  split at hb
  · rcases mem_append.mp hb with hb | hb
    · exact nameRun_ne hb
    · rcases mem_cons.mp hb with rfl | hb
      · decide
      · exact nameRun_ne hb
  · exact nameRun_ne hb

theorem StartsWith.zero_not_mem (h : StartsWith target e) : (0 : UInt8) ∉ target := by
  intro h0
  have hmem : asciiLower 0 ∈ foldCase (decodedName e) := h.subset (mem_map_of_mem h0)
  obtain ⟨b, hb, heq⟩ := mem_map.mp hmem
  exact asciiLower_ne_zero (decodedName_ne hb).2 (heq.trans (by decide))

/-- A slot found under a name that does not start with the mark of deleted slots has no mark. -/
theorem StartsWith.not_deleted (h : StartsWith target e) (hne : target ≠ [])
    (hfirst : target.head? ≠ some 0xE5) : e 0 ≠ 0xE5 := by
  intro hmark
  obtain ⟨b, rest, rfl⟩ := exists_cons_of_ne_nil hne
  have hrun : nameRun e 0 8 = 0xE5 :: nameRun e 1 7 := by
    rw [nameRun, hmark, if_pos (by decide)]
  obtain ⟨bytes, hbytes⟩ : ∃ bytes, decodedName e = 0xE5 :: bytes := by
    rw [decodedName, hrun]
    split <;> exact ⟨_, rfl⟩
  rw [StartsWith, hbytes] at h
  -- the mark is no letter, so it is the same byte whatever the case
  have hb : asciiLower b = 0xE5 := (cons_prefix_cons.mp h).1
  exact hfirst (congrArg some (eq_of_asciiLower_eq (by decide) hb))

/-- A stored name starts with a byte of the name or with a space. -/
theorem encodeName_first (h : (0 : UInt8) ∉ name) : (encodeName name).getD 0 0 ≠ 0 := by
  rw [encodeName]
  cases hbase : name.take (min ((name.findIdx? (· == 0x2E)).getD name.length) 8) with
  | nil =>
    simp only [length_nil, nil_append]
    exact (by decide : (0x20 : UInt8) ≠ 0)
  | cons b bs =>
    simp only [cons_append, getD_cons_zero]
    rintro rfl
    exact h (mem_of_mem_take (hbase ▸ mem_cons_self))

theorem storeDirName_first (h : (0 : UInt8) ∉ name) (e : Entry) :
    storeDirName e 0 name 0 ≠ 0 := by
  rw [storeDirName_base e name (by decide)]
  cases hbase : (name.take 8).takeWhile (· != 0x2E) with
  | nil => exact (by decide : (0x20 : UInt8) ≠ 0)
  | cons b bs =>
    have hb : b ∈ (name.take 8).takeWhile (· != 0x2E) := hbase ▸ mem_cons_self
    rintro rfl
    exact h (mem_of_mem_take ((takeWhile_sublist _).mem hb))

/-- In a directory where nothing lies behind the end marker, a lookup that finds nothing has seen
all entries. -/
theorem not_startsWith_of_missed (hne : target ≠ []) (ht : (0 : UInt8) ∉ target)
    (hend : Ended img slots) (hscan : scanDir img target slots = some none) (hp : p ∈ slots)
    (hlive : LiveEntry (img.slot p)) : ¬ StartsWith target (img.slot p) := by
  intro hstart
  obtain ⟨i, hi, rfl⟩ := getElem_of_mem hp
  obtain ⟨j, hj, r, hr, hmark, hhid⟩ :=
    (scanDir_none_iff hne ht slots).mp hscan i _ (getElem?_eq_getElem hi) hlive hstart
  obtain ⟨hjl, rfl⟩ := List.getElem?_eq_some_iff.mp hr
  exact pairwise_iff_getElem.mp hend j i hjl hi hj hhid hmark hlive

/-- The slot is as before, or its entry was deleted. -/
def KeptOrDeleted (img img' : Image) (p : Slot) : Prop :=
  img'.slot p = img.slot p ∨ img'.slot p = deletedEntry (img.slot p)

theorem KeptOrDeleted.live (h : KeptOrDeleted img img' p) (hlive : LiveEntry (img'.slot p)) :
    img'.slot p = img.slot p := by
  rcases h with h | h
  · exact h
  · rw [h] at hlive
    exact absurd hlive (deletedEntry_not_live _)

theorem KeptOrDeleted.marker (h : KeptOrDeleted img img' p) (hm : EndMarker (img'.slot p)) :
    img'.slot p = img.slot p := by
  rcases h with h | h
  · exact h
  · rw [h] at hm
    exact absurd hm (by show (0xE5 : UInt8) ≠ 0; decide)

/-- Deleting entries. -/
theorem UniqueNames.of_deleted (h : UniqueNames img slots)
    (hslots : ∀ p ∈ slots, KeptOrDeleted img img' p) : UniqueNames img' slots := by
  refine h.imp_of_mem ?_
  intro p q hp hq hpq hlp hlq
  have hp' := (hslots p hp).live hlp
  have hq' := (hslots q hq).live hlq
  rw [hp'] at hlp ⊢
  rw [hq'] at hlq ⊢
  exact hpq hlp hlq

theorem Ended.of_deleted (h : Ended img slots)
    (hslots : ∀ p ∈ slots, KeptOrDeleted img img' p) : Ended img' slots := by
  refine h.imp_of_mem ?_
  intro p q hp hq hpq hhid hmark hlive
  have hp' := (hslots p hp).marker hmark
  have hq' := (hslots q hq).live hlive
  rw [hp'] at hhid hmark
  rw [hq'] at hlive
  exact hpq hhid hmark hlive

/-- Writing an entry with a name that no live entry has. -/
theorem UniqueNames.of_written (h : UniqueNames img slots) (hnodup : slots.Nodup)
    (hslots : ∀ p ∈ slots, p ≠ q → KeptOrDeleted img img' p)
    (hnew : ∀ p ∈ slots, LiveEntry (img.slot p) →
      foldCase (decodedName (img.slot p)) ≠ foldCase (decodedName (img'.slot q))) :
    UniqueNames img' slots := by
  have hkept : ∀ p ∈ slots, p ≠ q → LiveEntry (img'.slot p) → img'.slot p = img.slot p :=
    fun p hp hpq hlive => (hslots p hp hpq).live hlive
  refine (h.and hnodup).imp_of_mem ?_
  rintro p r hp hr ⟨hpr, hne⟩ hlp hlr
  by_cases hpq : p = q
  · have hrq : r ≠ q := fun hrq => hne (hpq.trans hrq.symm)
    have hr' := hkept r hr hrq hlr
    rw [hr'] at hlr ⊢
    rw [hpq]
    exact (hnew r hr hlr).symm
  have hp' := hkept p hp hpq hlp
  rw [hp'] at hlp ⊢
  by_cases hrq : r = q
  · rw [hrq]
    exact hnew p hp hlp
  have hr' := hkept r hr hrq hlr
  rw [hr'] at hlr ⊢
  exact hpr hlp hlr

/-- Writing an entry to the first vacant slot. -/
theorem Ended.of_written {pre post : List Slot} (h : Ended img (pre ++ q :: post))
    (hnodup : (pre ++ q :: post).Nodup) (hpre : ∀ p ∈ pre, ¬ Vacant (img.slot p))
    (hslots : ∀ p ∈ pre ++ q :: post, p ≠ q → KeptOrDeleted img img' p)
    (hnew : ¬ EndMarker (img'.slot q)) : Ended img' (pre ++ q :: post) := by
  have hq : q ∉ pre ++ post := (nodup_cons.mp (nodup_middle.mp hnodup)).1
  have hne : ∀ p ∈ pre ++ post, p ≠ q := fun p hp hpq => hq (hpq ▸ hp)
  have hkept : ∀ p ∈ pre ++ post, KeptOrDeleted img img' p := by
    intro p hp
    refine hslots p ?_ (hne p hp)
    rcases mem_append.mp hp with hp | hp
    · exact mem_append_left _ hp
    · exact mem_append_right _ (mem_cons_of_mem _ hp)
  -- no slot in front of `q` is an end marker, before and after
  have hfront : ∀ p ∈ pre, ¬ EndMarker (img'.slot p) := by
    intro p hp hmark
    have hsame := (hkept p (mem_append_left _ hp)).marker hmark
    rw [hsame] at hmark
    exact hpre p hp (.inl hmark)
  have hpost : Ended img post := (pairwise_cons.mp (pairwise_append.mp h).2.1).2
  rw [Ended, pairwise_append, pairwise_cons]
  refine ⟨?_, ⟨fun r _ _ hmark => absurd hmark hnew, ?_⟩, fun p hp r _ _ hmark =>
    absurd hmark (hfront p hp)⟩
  · refine List.Pairwise.imp_of_mem ?_ (pairwise_append.mp h).1
    exact fun hp _ _ _ hmark => absurd hmark (hfront _ hp)
  · exact hpost.of_deleted fun p hp => hkept p (mem_append_right _ hp)

end Slots

/-! ## The directories of a changed tree -/

section Change

variable {fresh : Nat → Prop}
  {origin : Slot → Slot} {c' : Nat} {l l' : List Nat}

/-- **The directories of the new tree** are new, or they were there with the same clusters. -/
theorem Carried.dirHead (hg : Geometry vol) (hw : WellFormed vol img)
    (h : Carried vol img img' p fresh origin) (hc : DirHead vol img' c) :
    fresh c ∨ (DirHead vol img c ∧ ∀ l, img'.Chain vol c l → img.Chain vol c l) := by
  obtain ⟨hv, o, ho, hd, hstart⟩ := hc
  by_cases hop : o = some p
  · subst hop
    rcases h.dirCluster hg hw ho.1 with hnew | ⟨hp, -⟩
    · exact absurd (h.empty _ hnew p.2 ho.2.1 ho.2.2.1) ho.2.2.2
    · exact .inl (hstart ▸ h.entry hp hd)
  have hs := h.survives_of_live hg hw ho hop
  have hlive := h.live_owner hs
  have hdir : Owner.IsDir img (o.map origin) := by
    cases o with
    | none => trivial
    | some r => exact h.subdirectory hs hd
  have hstart' := (h.start_owner hs).symm.trans hstart
  refine .inr ⟨⟨hv, _, hlive, hdir, hstart'⟩, ?_⟩
  intro l hl
  rcases hw.heads _ hlive with h0 | ⟨m, hm⟩
  · have := hv.1
    omega
  · have hm' := h.chain_of_origin hs hm
    rw [hstart] at hm'
    rw [hstart'] at hm
    rwa [hl.unique hg.not_stop hm']

/-- Deleting entries keeps a directory orderly. -/
theorem Orderly.of_deleted (h : Orderly vol img c)
    (hchain : ∀ l, img'.Chain vol c l → img.Chain vol c l)
    (hslots : ∀ l (r : Slot), img.Chain vol c l → r.1 ∈ l → r.2 < vol.slotsPerCluster →
      KeptOrDeleted img img' r) : Orderly vol img' c := by
  intro l hl'
  have hl := hchain l hl'
  have hkept : ∀ r ∈ vol.dirSlots l, KeptOrDeleted img img' r := fun r hr =>
    hslots l r hl (mem_dirSlots.mp hr).1 (mem_dirSlots.mp hr).2
  exact ⟨(h l hl).1.of_deleted hkept, (h l hl).2.of_deleted hkept⟩

/-- **An entry under a name that was looked up and is stored with it in front** keeps the directory
orderly. -/
theorem Orderly.of_written (hg : Geometry vol) (h : Orderly vol img c) (hc : DirCluster vol img c)
    (hchain : ∀ l, img'.Chain vol c l → img.Chain vol c l) (hfirst : FirstVacant vol img c q)
    (hmiss : Misses vol img c name) (hne : name ≠ []) (hstored : StartsWith name (img'.slot q))
    (hmark : ¬ EndMarker (img'.slot q))
    (hslots : ∀ r : Slot, r ≠ q → DirCluster vol img r.1 → r.2 < vol.slotsPerCluster →
      KeptOrDeleted img img' r) : Orderly vol img' c := by
  intro l hl'
  have hl := hchain l hl'
  obtain ⟨hunique, hend⟩ := h l hl
  have hnodup : (vol.dirSlots l).Nodup := dirSlots_nodup (hl.nodup hg.not_stop)
  have hkept : ∀ r ∈ vol.dirSlots l, r ≠ q → KeptOrDeleted img img' r := by
    intro r hr hrq
    obtain ⟨hr1, hr2⟩ := mem_dirSlots.mp hr
    exact hslots r hrq (hc.of_chain hl _ hr1) hr2
  obtain ⟨m, hm, hscan⟩ := hmiss
  obtain rfl := hm.unique hg.not_stop hl
  obtain ⟨m', pre, post, hm', hcut, hpre, -⟩ := hfirst
  obtain rfl := hm'.unique hg.not_stop hl
  constructor
  · refine hunique.of_written hnodup hkept ?_
    intro r hr hlive heq
    refine not_startsWith_of_missed hne hstored.zero_not_mem hend hscan hr hlive ?_
    rw [StartsWith, heq]
    exact hstored
  · rw [hcut] at hend hnodup hkept ⊢
    exact hend.of_written hnodup hpre hkept hmark

/-- **The step for one directory.** An entry is written in the directory from `c'` on. -/
theorem orderly_step (hg : Geometry vol) (hw : WellFormed vol img)
    (hcar : Carried vol img img' p fresh origin) (hfresh : fresh c → Orderly vol img' c)
    (h : DirHead vol img c → Orderly vol img c) (hhead : DirHead vol img' c)
    (hc' : DirHead vol img c') (hfirst : FirstVacant vol img c' q) (hmiss : Misses vol img c' name)
    (hne : name ≠ []) (hstored : StartsWith name (img'.slot q)) (hmark : ¬ EndMarker (img'.slot q))
    (hslots : ∀ r : Slot, r ≠ q → DirCluster vol img r.1 → r.2 < vol.slotsPerCluster →
      KeptOrDeleted img img' r) : Orderly vol img' c := by
  rcases hcar.dirHead hg hw hhead with hnew | ⟨hc, hchain⟩
  · exact hfresh hnew
  by_cases hcc : c = c'
  · subst hcc
    exact (h hc).of_written hg hc.dirCluster hchain hfirst hmiss hne hstored hmark hslots
  -- the slot written is in another directory
  refine (h hc).of_deleted hchain fun l r hl hr hi =>
    hslots r ?_ (hc.dirCluster.of_chain hl _ hr) hi
  rintro rfl
  obtain ⟨m, pre, post, hm, hcut, -⟩ := hfirst
  have hr' := (mem_dirSlots.mp (mem_iff_append.mpr ⟨_, _, hcut⟩)).1
  exact hc.disjoint hw hc' hcc hl hm _ hr hr'

end Change

/-! ## New entries -/

section Entries

variable {new parent : Nat}

/-- The name bytes that `f_open` stores. -/
theorem newEntry_of_lt (e : Entry) (name : Bytes) (new : Nat) (hk : k < 0x0B) :
    newEntry e name new k = Buf.store e 0 (encodeName name) k := by
  rw [newEntry, storeStart_apply (by omega), Buf.set, if_neg (by omega)]

/-- The name bytes that `f_rename` stores. -/
theorem movedEntry_of_lt (e source : Entry) (name : Bytes) (hk : k < 0x0B) :
    movedEntry e source name k = Buf.store e 0 (encodeName name) k := by
  rw [movedEntry, Buf.store, if_neg (by omega)]

theorem Storable.stored (h : Storable name)
    (hbytes : ∀ k < 0x0B, e' k = Buf.store e 0 (encodeName name) k) :
    StartsWith name e' ∧ ¬ EndMarker e' := by
  refine ⟨(h e).congr hbytes, ?_⟩
  rw [EndMarker, hbytes 0 (by decide), Buf.store, encodeName_length, if_pos (by decide)]
  exact encodeName_first (h e).zero_not_mem

/-- What `f_open` stores. -/
theorem newEntry_stored (h : Storable name) (e : Entry) (new : Nat) :
    StartsWith name (newEntry e name new) ∧ ¬ EndMarker (newEntry e name new) :=
  h.stored fun _ hk => newEntry_of_lt e name new hk

/-- What `f_rename` stores. -/
theorem movedEntry_stored (h : Storable name) (e source : Entry) :
    StartsWith name (movedEntry e source name) ∧ ¬ EndMarker (movedEntry e source name) :=
  h.stored fun _ hk => movedEntry_of_lt e source name hk

/-- What `f_mkdir` stores. -/
theorem newDirEntry_stored (h : StorableDir name) (e : Entry) (new : Nat) :
    StartsWith name (newDirEntry e name new) ∧ ¬ EndMarker (newDirEntry e name new) := by
  have hbytes : ∀ k < 0x0B, newDirEntry e name new k = storeDirName e 0 name k :=
    fun k hk => newDirEntry_of_lt e name new hk
  refine ⟨(h e).congr hbytes, ?_⟩
  rw [EndMarker, hbytes 0 (by decide)]
  exact storeDirName_first (h e).zero_not_mem e

/-- A new directory is orderly: it has the entries `.` and `..`. -/
theorem MadeDir.orderly (hg : Geometry vol) (h : MadeDir vol img new parent q name img') :
    Orderly vol img' new := by
  have hentry := freshDirectory_kind new parent
  -- live slots are the first two
  have hlt : ∀ i < vol.slotsPerCluster, LiveEntry (img'.slot (new, i)) → i < 2 := by
    intro i hi hlive
    rw [h.content i hi] at hlive
    exact Nat.not_le.mp fun hi => hlive.2.1 (freshDirectory_marker new parent hi)
  have hnames : foldCase (decodedName (entryAt (freshDirectory 0 0) 0)) ≠
      foldCase (decodedName (entryAt (freshDirectory 0 0) 1)) := by decide
  have hmarks : ∀ i < 2, ¬ EndMarker (entryAt (freshDirectory 0 0) i) := by decide
  intro l hl
  obtain rfl := hl.unique hg.not_stop (.last h.valid (h.added hg).next_new)
  have hmem : ∀ p ∈ vol.dirSlots [new], p = (new, p.2) ∧ p.2 < vol.slotsPerCluster := by
    intro p hp
    obtain ⟨hp1, hp2⟩ := mem_dirSlots.mp hp
    exact ⟨Prod.ext (mem_singleton.mp hp1) rfl, hp2⟩
  have hsorted : (vol.dirSlots [new]).Pairwise fun p q => p.2 < q.2 := by
    rw [dirSlots, flatMap_singleton, clusterSlots, pairwise_map]
    exact pairwise_lt_range'
  constructor
  · refine hsorted.imp_of_mem ?_
    intro p q hp hq hpq hlp hlq
    obtain ⟨hp1, hp2⟩ := hmem p hp
    obtain ⟨hq1, hq2⟩ := hmem q hq
    rw [hp1] at hlp
    rw [hq1] at hlq
    have h1 := hlt _ hp2 hlp
    have h2 := hlt _ hq2 hlq
    rw [hp1, hq1, h.content _ hp2, h.content _ hq2, show p.2 = 0 by omega, show q.2 = 1 by omega,
      decodedName_congr fun k hk => hentry 0 k (by omega),
      decodedName_congr fun k hk => hentry 1 k (by omega)]
    exact hnames
  · refine hsorted.imp_of_mem ?_
    intro p q hp hq hpq _ hmark hlive
    obtain ⟨hp1, hp2⟩ := hmem p hp
    obtain ⟨hq1, hq2⟩ := hmem q hq
    rw [hq1] at hlive
    have h2 := hlt _ hq2 hlive
    rw [hp1, h.content _ hp2, EndMarker, hentry p.2 0 (by decide)] at hmark
    exact hmarks p.2 (by omega) hmark

end Entries

/-! ## Runs -/

/-- Creating a file, or an operation on the tree. -/
inductive NameOp where
  | create (path : Bytes) (flags : Nat)
  | tree (op : TreeOp)
  deriving DecidableEq, Repr

/-- The disk after an operation that returned, with a value or with an error. -/
def runNameOp (vol : FatVolume) (d : Disk) : NameOp → Option Disk
  | .create path flags => Outcome.after (fOpen (some vol) path flags d)
  | .tree op => runTreeOp vol d op

/-- The last component does not select `.` or `..`. -/
def SelectsEntry (vol : FatVolume) (img : Image) (c : Nat) (name : Bytes) : Prop :=
  ∀ p, Selects vol img c name p → ¬ IsDot (img.slot p)

/-- New names go to the first cluster of a directory and fit into a slot. -/
def NameOp.Sound (vol : FatVolume) (img : Image) : NameOp → Prop
  | .create path flags => flags &&& FA_CREATE_NEW ≠ 0 ∧
      PathInTree vol img path fun c name => DirHead vol img c ∧ name ≠ [] ∧ Storable name
  | .tree (.mkdir path) =>
      PathInTree vol img path fun c name => DirHead vol img c ∧ StorableDir name
  | .tree (.rename oldPath newPath) => PathInTree vol img oldPath (SelectsEntry vol img) ∧
      PathInTree vol img newPath fun c name => DirHead vol img c ∧ Storable name
  | .tree (.unlink path) => PathInTree vol img path (SelectsEntry vol img)

/-- The disk shows a well-formed volume in which `c`, if it is a directory, is orderly. -/
def Neat (vol : FatVolume) (c : Nat) (d : Disk) : Prop :=
  ∃ img, Shows vol d img ∧ WellFormed vol img ∧ (DirHead vol img c → Orderly vol img c)

section Runs

variable {d d' : Disk}

theorem Spares.neat (hg : Geometry vol) (hw : WellFormed vol img)
    (h : DirHead vol img c → Orderly vol img c) (hs : Shows vol d img') (hsp : Spares img img') :
    Neat vol c d := by
  have ht := hw.treeOk hg
  refine ⟨img', hs, hsp.wellFormed hg hw, fun hhead => ?_⟩
  obtain ⟨hc, hchain⟩ := ((hsp.carried ht).dirHead hg hw hhead).resolve_left id
  exact (h hc).of_deleted hchain fun l r hl hr _ =>
    .inl (hsp.dir_slot ht (hc.dirCluster.of_chain hl _ hr))

variable (hg : Geometry vol) (hs : Shows vol d img) (hw : WellFormed vol img)
  (h : DirHead vol img c → Orderly vol img c)
include hg hs hw h

/-- **Creating a file.** -/
theorem create_neat {path : Bytes} {flags : Nat} (hop : NameOp.Sound vol img (.create path flags))
    (hrun : runNameOp vol d (.create path flags) = some d') : Neat vol c d' := by
  have ht := hw.treeOk hg
  have hsame : Neat vol c d := ⟨img, hs, hw, h⟩
  refine after_of_sat (P := Neat vol c) ?_ hrun
  apply openVol_sat hg hs.view_eq ht hop.2 (fun _ => hsame)
  · intro _ _ _ _ _ _
    rw [openExisting, if_pos hop.1]
    exact hsame
  · rintro c' name hc' ⟨hhead', hne, hstorable⟩ hmiss
    refine (openMissing_returns hg hs ht hc' name).sat.mono ?_ ?_
    · rintro f d' ⟨new, q, img', rfl, hcreated, hs', hfirst, hentry⟩
      have hadded := hcreated.added
      obtain ⟨hstored, hmark⟩ := newEntry_stored hstorable (img.slot q) new
      refine ⟨img', hs', hadded.wellFormed hg hw, fun hhead => ?_⟩
      exact orderly_step hg hw (hadded.carried ht)
        (fun hnew => absurd hnew.2.2.1 hcreated.regular) h
        hhead hhead' hfirst hmiss hne (hentry ▸ hstored) (hentry ▸ hmark)
        fun r hr hd hi => .inl (hadded.dir_slot ht hr hd hi)
    · rintro e d' (⟨rfl, -⟩ | ⟨new, hfree, hs', -⟩)
      · exact hsame
      · exact (Spares.mark hfree).neat hg hw h hs'

/-- **The operations on the tree.** -/
theorem runTreeOp_neat {op : TreeOp} (hop : NameOp.Sound vol img (.tree op))
    (hrun : runTreeOp vol d op = some d') : Neat vol c d' := by
  have ht := hw.treeOk hg
  have hsame : Neat vol c d := ⟨img, hs, hw, h⟩
  cases op with
  | mkdir path =>
    refine after_of_sat (P := Neat vol c) ?_ hrun
    refine (fMkdir_sat hg hs hw hop).mono ?_ fun _ _ ⟨img', hs', hsp⟩ => hsp.neat hg hw h hs'
    rintro - d' ⟨c', name, new, q, img', -, ⟨hhead', hstorable⟩, hne, hmiss, hfirst, hs', hmade⟩
    have hadded := hmade.added hg
    obtain ⟨hstored, hmark⟩ := newDirEntry_stored hstorable (img.slot q) new
    refine ⟨img', hs', hadded.wellFormed hg hw, fun hhead => ?_⟩
    refine orderly_step hg hw (hadded.carried ht) ?_ h hhead hhead' hfirst hmiss hne
      (hmade.entry ▸ hstored) (hmade.entry ▸ hmark) fun r hr hd hi =>
        .inl (hadded.dir_slot ht hr hd hi)
    rintro ⟨rfl, -⟩
    exact hmade.orderly hg
  | rename oldPath newPath =>
    refine after_of_sat (P := Neat vol c) ?_ hrun
    refine (fRename_sat hg hs hw hop.1 hop.2).mono ?_ ?_
    · rintro - d' ⟨c₀, name₀, p, c', name, q, img', hc₀, hentry, hsel, -, ⟨hhead', hstorable⟩, hne,
        hmiss, hfirst, hs', hmoved⟩
      obtain ⟨hplace, hindex, hlive⟩ := hsel.in_tree hc₀
      have hp : Owner.Live vol img (some p) := ⟨hplace, hindex, hlive, hentry p hsel⟩
      obtain ⟨hstored, hmark⟩ := movedEntry_stored hstorable (img.slot q) (img.slot p)
      refine ⟨img', hs', hmoved.wellFormed hg hw hp, fun hhead => ?_⟩
      refine orderly_step hg hw (hmoved.carried hp) (fun hnew => hnew.elim) h hhead hhead'
        hfirst hmiss
        hne (hmoved.target ▸ hstored) (hmoved.target ▸ hmark) ?_
      intro r hr hd hi
      by_cases hrp : r = p
      · exact .inr (hrp ▸ hmoved.source)
      · exact .inl (hmoved.slots r hrp hr hi)
    · rintro e d' rfl
      exact hsame
  | unlink path =>
    refine after_of_sat (P := Neat vol c) ?_ hrun
    refine (fUnlink_sat hg hs hw hop fun _ _ p hentry hsel => hentry p hsel).mono ?_ ?_
    · rintro - d' ⟨c₀, name₀, p, img', -, -, -, hp, hs', hun⟩
      refine ⟨img', hs', hun.wellFormed hg hw hp, fun hhead => ?_⟩
      obtain ⟨hc, hchain⟩ := ((hun.carried hw hp).dirHead hg hw hhead).resolve_left id
      refine (h hc).of_deleted hchain fun _ r _ _ hi => ?_
      by_cases hrp : r = p
      · exact .inr (hrp ▸ hun.entry)
      · exact .inl (hun.slots r hrp hi)
    · rintro e d' rfl
      exact hsame

end Runs

/-- **Names stay different.** On a well-formed volume, let the directory from `c` on have different
names, with no entry behind its end marker. After any sequence of creating files, making
directories, renaming and unlinking, in which every name that is stored starts with the name that
was asked for, the live entries of the directory, as long as it exists, have pairwise different
names. -/
theorem names_stay_unique (vol : FatVolume) (d₀ d : Disk) (c : Nat) (hg : Geometry vol)
    (hm : Mirrored vol d₀) (hw : WellFormed vol (view vol d₀)) (hc : Orderly vol (view vol d₀) c)
    (hrun : Reach (fun d => d = d₀) (fun d (op : NameOp) => op.Sound vol (view vol d))
      (fun d op d' => runNameOp vol d op = some d') d)
    (hdir : DirHead vol (view vol d) c) (l : List Nat) (hl : (view vol d).Chain vol c l) :
    UniqueNames (view vol d) (vol.dirSlots l) := by
  have h : Neat vol c d := by
    refine Reach.invariant (P := Neat vol c) ?_ ?_ hrun
    · rintro s rfl
      exact ⟨_, hm.shows, hw, fun _ => hc⟩
    · rintro s op s' ⟨img, hs, hw', h⟩ hop hstep
      rw [hs.view_eq] at hop
      cases op with
      | create path flags => exact create_neat hg hs hw' h hop hstep
      | tree op => exact runTreeOp_neat hg hs hw' h hop hstep
  obtain ⟨img, hs, -, h⟩ := h
  rw [hs.view_eq] at hdir hl ⊢
  exact (h hdir l hl).1

/-! ## 8.3 names -/

/-- No space, dot or NUL. -/
def Plain (bytes : Bytes) : Prop := ∀ b ∈ bytes, b ≠ 0x20 ∧ b ≠ 0x2E ∧ b ≠ 0

/-- A base of up to eight bytes, and maybe an extension of up to three. -/
inductive ShortName : Bytes → Prop
  | base {base : Bytes} (hb : Plain base) (h1 : base ≠ []) (h8 : base.length ≤ 8) :
      ShortName base
  | ext {base ext : Bytes} (hb : Plain base) (h1 : base ≠ []) (h8 : base.length ≤ 8)
      (he : Plain ext) (he1 : ext ≠ []) (h3 : ext.length ≤ 3) : ShortName (base ++ 0x2E :: ext)

section ShortNames

variable {base ext : Bytes}

/-- A run of name bytes that is cut off by a space or by its length. -/
theorem nameRun_eq (hb : Plain base) (hn : base.length ≤ n)
    (hin : ∀ i (h : i < base.length), e (j + i) = base[i])
    (hout : base.length < n → e (j + base.length) = 0x20) : nameRun e j n = base := by
  induction base generalizing j n with
  | nil =>
    cases n with
    | zero => rfl
    | succ n =>
      have h20 : e j = 0x20 := hout (Nat.zero_lt_succ n)
      rw [nameRun, if_neg fun h => h.1 h20]
  | cons b bs ih =>
    obtain ⟨n, rfl⟩ : ∃ m, n = m + 1 := ⟨n - 1, by rw [length_cons] at hn; omega⟩
    have hfirst : e j = b := hin 0 (by simp)
    obtain ⟨h20, -, h0⟩ := hb b mem_cons_self
    rw [nameRun, hfirst, if_pos ⟨h20, h0⟩]
    congr 1
    apply ih
    · exact fun x hx => hb x (mem_cons_of_mem _ hx)
    · rw [length_cons] at hn
      omega
    · intro i hi
      have := hin (i + 1) (by rw [length_cons]; omega)
      rwa [getElem_cons_succ, ← Nat.add_assoc, Nat.add_right_comm] at this
    · intro hlt
      have := hout (by rw [length_cons]; omega)
      rwa [length_cons, ← Nat.add_assoc, Nat.add_right_comm] at this

/-- The name is put together from its two runs, with a dot when there is an extension. -/
theorem decodedName_of_runs (hbase : nameRun e 0 8 = base) (hext : nameRun e 8 3 = ext) :
    decodedName e = if ext = [] then base else base ++ 0x2E :: ext := by
  have hdot : (e 8 ≠ 0x20 ∧ e 8 ≠ 0) ↔ ext ≠ [] := by
    rw [← hext, nameRun]
    split
    next h => exact iff_of_true h (cons_ne_nil _ _)
    next h => exact iff_of_false h fun h => h rfl
  rw [decodedName, hbase, hext]
  by_cases hnil : ext = []
  · rw [if_neg fun h => hdot.mp h hnil, if_pos hnil]
  · rw [if_pos (hdot.mpr hnil), if_neg hnil]

/-- Base and extension, padded with spaces. -/
def paddedName (base ext : Bytes) : Bytes :=
  base ++ replicate (8 - base.length) 0x20 ++ ext ++ replicate (3 - ext.length) 0x20

section

variable (h8 : base.length ≤ 8)
include h8

theorem paddedName_length (h3 : ext.length ≤ 3) : (paddedName base ext).length = 11 := by
  simp only [paddedName, length_append, length_replicate]
  omega

theorem paddedBase_length : (base ++ replicate (8 - base.length) (0x20 : UInt8)).length = 8 := by
  rw [length_append, length_replicate]
  omega

/-- The base part of the padded name. -/
theorem paddedName_base (hk : k < 8) : (paddedName base ext).getD k 0 = base.getD k 0x20 := by
  rw [paddedName, append_assoc, getD_append _ _ _ _ (by rwa [paddedBase_length h8])]
  by_cases hin : k < base.length
  · rw [getD_append _ _ _ _ hin, getD_eq_getElem _ _ hin, getD_eq_getElem _ _ hin]
  · rw [getD_append_right _ _ _ _ (by omega), getD_replicate _ (by omega),
      getD_eq_default _ _ (by omega)]

/-- The extension part of the padded name. -/
theorem paddedName_ext (i : Nat) : (paddedName base ext).getD (8 + i) 0 =
      (ext ++ replicate (3 - ext.length) 0x20).getD i 0 := by
  have hlen := paddedBase_length h8
  rw [paddedName, append_assoc, getD_append_right _ _ _ _ (by omega), hlen, Nat.add_sub_cancel_left]

end

theorem store_paddedName (e : Entry) (h8 : base.length ≤ 8) (h3 : ext.length ≤ 3)
    (hk : k < 11) : Buf.store e 0 (paddedName base ext) k = (paddedName base ext).getD k 0 := by
  rw [Buf.store, paddedName_length h8 h3, if_pos ⟨Nat.zero_le k, by omega⟩, Nat.sub_zero]

/-- Base and extension are read back from the bytes they were padded to. -/
theorem decodedName_padded (e : Entry) (hb : Plain base) (h8 : base.length ≤ 8) (he : Plain ext)
    (h3 : ext.length ≤ 3) : decodedName (Buf.store e 0 (paddedName base ext)) =
      if ext = [] then base else base ++ 0x2E :: ext := by
  have hbyte : ∀ k < 11, _ := fun k => store_paddedName (k := k) e h8 h3
  have hbase : nameRun (Buf.store e 0 (paddedName base ext)) 0 8 = base := by
    apply nameRun_eq hb h8
    · intro i hi
      rw [Nat.zero_add, hbyte i (by omega), paddedName_base h8 (by omega), getD_eq_getElem _ _ hi]
    · intro hlt
      rw [Nat.zero_add, hbyte _ (by omega), paddedName_base h8 hlt, getD_eq_default _ _ le_rfl]
  have hext : nameRun (Buf.store e 0 (paddedName base ext)) 8 3 = ext := by
    apply nameRun_eq he h3
    · intro i hi
      rw [hbyte _ (by omega), paddedName_ext h8, getD_append _ _ _ _ hi, getD_eq_getElem _ _ hi]
    · intro hlt
      rw [hbyte _ (by omega), paddedName_ext h8, getD_append_right _ _ _ _ le_rfl, Nat.sub_self,
        getD_replicate _ (by omega)]
  exact decodedName_of_runs hbase hext

theorem findIdx?_dot_base (hb : Plain base) : base.findIdx? (· == 0x2E) = none := by
  rw [findIdx?_eq_none_iff]
  intro b hbm
  exact beq_eq_false_iff_ne.mpr (hb b hbm).2.1

theorem findIdx?_dot_ext (hb : Plain base) :
    (base ++ 0x2E :: ext).findIdx? (· == 0x2E) = some base.length := by
  rw [findIdx?_append, findIdx?_dot_base hb]
  simp [findIdx?_cons]

/-- The name bytes of a name without an extension. -/
theorem encodeName_base (hb : Plain base) (h8 : base.length ≤ 8) :
    encodeName base = paddedName base [] := by
  simp only [encodeName, findIdx?_dot_base hb, Option.getD_none, Nat.min_eq_left h8,
    take_length, paddedName]

theorem extension_eq (h3 : ext.length ≤ 3) :
    ((base ++ 0x2E :: ext).drop (base.length + 1)).take 3 = ext := by
  rw [← drop_drop, drop_left, drop_one, tail_cons, take_of_length_le h3]

/-- The name bytes of a name with an extension. -/
theorem encodeName_ext (hb : Plain base) (h8 : base.length ≤ 8) (h3 : ext.length ≤ 3) :
    encodeName (base ++ 0x2E :: ext) = paddedName base ext := by
  simp only [encodeName, findIdx?_dot_ext hb, Option.getD_some, Nat.min_eq_left h8,
    take_left, paddedName, extension_eq h3]

/-- **An 8.3 name is read back as it was stored.** -/
theorem ShortName.decoded (h : ShortName name) (e : Entry) :
    decodedName (Buf.store e 0 (encodeName name)) = name := by
  cases h with
  | base hb _ h8 =>
    rw [encodeName_base hb h8,
      decodedName_padded e hb h8 (fun b hb => absurd hb not_mem_nil) (Nat.zero_le 3), if_pos rfl]
  | ext hb _ h8 he he1 h3 =>
    rw [encodeName_ext hb h8 h3, decodedName_padded e hb h8 he h3, if_neg he1]

theorem ShortName.storable (h : ShortName name) : Storable name := by
  intro e
  rw [StartsWith, h.decoded e]

theorem ShortName.ne_nil (h : ShortName name) : name ≠ [] := by
  cases h with
  | base _ h1 _ => exact h1
  | ext _ h1 _ _ _ _ => exact append_ne_nil_of_left_ne_nil h1 _

/-- A slot that starts with the stored name is decoded to the name, padded with zeros. -/
theorem ShortName.readDirEntryName (h : ShortName name)
    (he : ∀ k < 0x0B, e' k = Buf.store e 0 (encodeName name) k) :
    FatVolume.readDirEntryName e' = some (name ++ replicate (13 - name.length) 0) := by
  have hdecoded : decodedName e' = name := (decodedName_congr he).trans (h.decoded e)
  have hlen : ¬ name.length = 0 := fun h0 => h.ne_nil (length_eq_zero_iff.mp h0)
  simp only [FatVolume.readDirEntryName, hdecoded, if_neg hlen]

/-- **8.3 names are read back as they were given.** In a cluster with any content, the slot that
`f_open` writes for a new file is decoded to the name, padded with zeros, and so is the slot that
`f_rename` writes. Different names are stored as different bytes. -/
theorem short_names_round_trip (h : ShortName name) :
    (∀ (buf : Buf) (idx new : Nat), FatVolume.readDirEntryName (entryAt
      (storeStart ((buf.store (idx * DIR_SIZE) (encodeName name)).set (idx * DIR_SIZE + 0x0B) 0x20)
        (idx * DIR_SIZE) new) idx) = some (name ++ replicate (13 - name.length) 0)) ∧
    (∀ (buf : Buf) (idx : Nat) (entry : Entry), FatVolume.readDirEntryName (entryAt
      ((buf.store (idx * DIR_SIZE) (encodeName name)).store (idx * DIR_SIZE + 0x0B)
        ((range 21).map fun k => entry (0x0B + k))) idx) =
          some (name ++ replicate (13 - name.length) 0)) ∧
    ∀ name', ShortName name' → encodeName name = encodeName name' → name = name' := by
  refine ⟨fun buf idx new => ?_, fun buf idx entry => ?_, fun name' h' heq => ?_⟩
  · rw [(newEntry_edit idx new name).entry buf]
    exact h.readDirEntryName fun k hk => newEntry_of_lt _ name new hk
  · rw [(movedEntry_edit idx entry name).entry buf]
    exact h.readDirEntryName fun k hk => movedEntry_of_lt _ entry name hk
  · have hdecoded := h.decoded fun _ => 0
    rw [heq, h'.decoded] at hdecoded
    exact hdecoded.symm

/-- The name `A.B`, in slot 3 of a cluster full of stale bytes. -/
theorem short_names_round_trip_AB : ShortName [0x41, 0x2E, 0x42] ∧
    FatVolume.readDirEntryName (entryAt (storeStart ((Buf.store (fun _ => 0xFF) (3 * DIR_SIZE)
      (encodeName [0x41, 0x2E, 0x42])).set (3 * DIR_SIZE + 0x0B) 0x20) (3 * DIR_SIZE) 7) 3) =
        some ([0x41, 0x2E, 0x42] ++ replicate 10 0) := by
  have hplain : ∀ b : UInt8, b ≠ 0x20 ∧ b ≠ 0x2E ∧ b ≠ 0 → Plain [b] :=
    fun b hb x hx => mem_singleton.mp hx ▸ hb
  have hname : ShortName [0x41, 0x2E, 0x42] :=
    ShortName.ext (hplain 0x41 (by decide)) (cons_ne_nil _ _) (by decide)
      (hplain 0x42 (by decide)) (cons_ne_nil _ _) (by decide)
  exact ⟨hname, (short_names_round_trip hname).1 (fun _ => 0xFF) 3 7⟩

/-- The base of a name, as `f_mkdir` cuts it. -/
theorem baseName_eq (hb : Plain base) (h8 : base.length ≤ 8)
    (htail : tail = [] ∨ tail = 0x2E :: ext) :
    ((base ++ tail).take 8).takeWhile (· != 0x2E) = base := by
  have hall : ∀ b ∈ base, (b != 0x2E) = true := fun b hbm => bne_iff_ne.mpr (hb b hbm).2.1
  rw [take_append, take_of_length_le h8, takeWhile_append_of_pos hall]
  rcases htail with rfl | rfl
  · simp
  · cases 8 - base.length <;> simp

/-- The base that `f_mkdir` stores is the part in front of the dot. -/
theorem storeDirName_run (e : Entry) (hb : Plain base) (h8 : base.length ≤ 8)
    (htail : tail = [] ∨ tail = 0x2E :: ext) :
    nameRun (storeDirName e 0 (base ++ tail)) 0 8 = base := by
  have hcut := baseName_eq hb h8 htail
  apply nameRun_eq hb h8
  · intro i hi
    rw [Nat.zero_add, storeDirName_base e _ (by omega), hcut, getD_eq_getElem _ _ hi]
  · intro hlt
    rw [Nat.zero_add, storeDirName_base e _ hlt, hcut, getD_eq_default _ _ le_rfl]

/-- The extension that `f_mkdir` stores. -/
theorem storeDirName_ext (e : Entry) (hb : Plain base) (h3 : ext.length ≤ 3) {i : Nat}
    (hi : i < 3) : storeDirName e 0 (base ++ 0x2E :: ext) (8 + i) =
      (ext ++ replicate (3 - ext.length) 0x20).getD i 0 := by
  have hlen : (ext ++ replicate (3 - ext.length) (0x20 : UInt8)).length = 3 := by
    rw [length_append, length_replicate]
    omega
  simp only [storeDirName, findIdx?_dot_ext hb, extension_eq h3, Nat.zero_add]
  rw [Buf.store, if_pos (by omega), Nat.add_sub_cancel_left]

/-- The same for `f_mkdir`. Without a dot in the name the old extension stays, behind the name. -/
theorem ShortName.storableDir (h : ShortName name) : StorableDir name := by
  intro e
  cases h with
  | base hb _ h8 =>
    have htail : ([] : Bytes) = [] ∨ ([] : Bytes) = 0x2E :: [] := .inl rfl
    have hrun := storeDirName_run e hb h8 htail
    rw [append_nil] at hrun
    rw [StartsWith, decodedName_of_runs hrun rfl]
    split
    · exact prefix_rfl
    · rw [foldCase, foldCase, map_append]
      exact prefix_append _ _
  | @ext base ext hb _ h8 he he1 h3 =>
    have hrun := storeDirName_run e hb h8 (.inr rfl : 0x2E :: ext = [] ∨ 0x2E :: ext = 0x2E :: ext)
    have hext : nameRun (storeDirName e 0 (base ++ 0x2E :: ext)) 8 3 = ext := by
      apply nameRun_eq he h3
      · intro i hi
        rw [storeDirName_ext e hb h3 (by omega), getD_append _ _ _ _ hi, getD_eq_getElem _ _ hi]
      · intro hlt
        rw [storeDirName_ext e hb h3 hlt, getD_append_right _ _ _ _ le_rfl, Nat.sub_self,
          getD_replicate _ (by omega)]
    rw [StartsWith, decodedName_of_runs hrun hext, if_neg he1]

end ShortNames

/-! ## On the sample volume -/

/-- The root directory of the sample volume is orderly. -/
theorem sample_orderly : Orderly tinyVol sampleImage 2 := by
  intro l hl
  obtain rfl := hl.unique tiny_geometry.not_stop (sample_chain (by decide))
  decide +kernel

/-- Creating the file `X` in the root directory. -/
theorem names_stay_unique_sample : ∃ d,
    runNameOp tinyVol sampleDisk (.create [0x2F, 0x58] (FA_WRITE ||| FA_CREATE_NEW)) = some d ∧
    UniqueNames (view tinyVol d) (tinyVol.dirSlots [2]) := by
  obtain ⟨d, hop, hend⟩ : ∃ d, runNameOp tinyVol sampleDisk
      (.create [0x2F, 0x58] (FA_WRITE ||| FA_CREATE_NEW)) = some d ∧
      END_MARK ≤ (view tinyVol d).next 2 := by decide +kernel
  have hroot : ∀ img, DirHead tinyVol img 2 := fun _ =>
    ⟨by decide, none, trivial, trivial, rfl⟩
  have hplain : Plain [0x58] := by
    intro b hb
    obtain rfl := mem_singleton.mp hb
    decide
  have hname : ShortName [0x58] := .base hplain (by decide) (by decide)
  have hsound : NameOp.Sound tinyVol sampleImage
      (.create [0x2F, 0x58] (FA_WRITE ||| FA_CREATE_NEW)) :=
    ⟨by decide, hroot _, by decide, hname.storable⟩
  exact ⟨d, hop, names_stay_unique tinyVol sampleDisk d 2 tiny_geometry (tiny_mirrored _)
    sample_wellFormed sample_orderly (.step (.init rfl) hsound hop) (hroot _) [2]
    (.last (by decide) hend)⟩

/-- The path `/LONGNAME` with one more byte. -/
def longPath (b : UInt8) : Bytes := [0x2F, 0x4C, 0x4F, 0x4E, 0x47, 0x4E, 0x41, 0x4D, 0x45, b]

/-- Creating `LONGNAME1` and then `LONGNAME2` stores the name `LONGNAME` twice. -/
theorem truncated_names_collide :
    Geometry tinyVol ∧ Mirrored tinyVol sampleDisk ∧ WellFormed tinyVol sampleImage ∧
    Orderly tinyVol sampleImage 2 ∧
    ∃ d, runSteps (runNameOp tinyVol) sampleDisk
        [.create (longPath 0x31) (FA_WRITE ||| FA_CREATE_NEW),
          .create (longPath 0x32) (FA_WRITE ||| FA_CREATE_NEW)] = some d ∧
      DirHead tinyVol (view tinyVol d) 2 ∧ (view tinyVol d).Chain tinyVol 2 [2] ∧
      (2, 0) ∈ tinyVol.dirSlots [2] ∧ (2, 4) ∈ tinyVol.dirSlots [2] ∧
      LiveEntry ((view tinyVol d).slot (2, 0)) ∧ LiveEntry ((view tinyVol d).slot (2, 4)) ∧
      foldCase (decodedName ((view tinyVol d).slot (2, 0))) =
        foldCase (decodedName ((view tinyVol d).slot (2, 4))) ∧
      ¬ UniqueNames (view tinyVol d) (tinyVol.dirSlots [2]) := by
  obtain ⟨d, hop, hend, hlive, hlive', hname⟩ : ∃ d, runSteps (runNameOp tinyVol) sampleDisk
      [.create (longPath 0x31) (FA_WRITE ||| FA_CREATE_NEW),
        .create (longPath 0x32) (FA_WRITE ||| FA_CREATE_NEW)] = some d ∧
      END_MARK ≤ (view tinyVol d).next 2 ∧ LiveEntry ((view tinyVol d).slot (2, 0)) ∧
      LiveEntry ((view tinyVol d).slot (2, 4)) ∧
      foldCase (decodedName ((view tinyVol d).slot (2, 0))) =
        foldCase (decodedName ((view tinyVol d).slot (2, 4))) := by decide +kernel
  refine ⟨tiny_geometry, tiny_mirrored _, sample_wellFormed, sample_orderly, d, hop,
    ⟨by decide, none, trivial, trivial, rfl⟩, .last (by decide) hend, by decide, by decide, hlive,
    hlive', hname, ?_⟩
  intro hunique
  have hpair := pairwise_iff_getElem.mp hunique 0 4 (by decide) (by decide) (by decide)
  exact hpair hlive hlive' hname

end PlanckOS.Fat32
