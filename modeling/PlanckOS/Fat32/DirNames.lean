import PlanckOS.Fat32.Entries
import PlanckOS.Fat32.FailedCreate

/-!
# The names of files and directories

`f_open` and `f_mkdir` each have their own 8.3 encoder. The one of `f_open` builds all eleven name
bytes; the one of `f_mkdir` writes into the slot and touches the extension only when the name has a
dot or more than eight bytes. So for an 8.3 name both give the same bytes exactly when the name has
a dot, or when the slot's old extension is blank (`storeDirName_eq_iff`).

`f_mkdir` also refuses every name of more than eleven bytes, dot included. Both together give the
condition under which `f_mkdir` names a directory as `f_open` names a file
(`mkdir_names_like_open_iff`).
-/

set_option autoImplicit false

namespace PlanckOS.Fat32

open Lib.Fallible FatVolume List

/-! ## The two encoders -/

/-- The extension bytes of the slot are spaces. -/
def BlankExtension (e : Entry) : Prop := ∀ i < 3, e (8 + i) = 0x20

instance (e : Entry) : Decidable (BlankExtension e) :=
  inferInstanceAs (Decidable (∀ i < 3, e (8 + i) = 0x20))

section Encoders

variable {name base ext : Bytes} {e e' : Entry}

theorem nameBytes_eq_iff : nameBytes e = nameBytes e' ↔ ∀ k < 0x0B, e k = e' k := by
  rw [nameBytes, nameBytes, map_inj_left]
  exact forall_congr' fun k => by rw [mem_range]

/-- Without a dot `f_mkdir` leaves the slot's extension as it was. -/
theorem storeDirName_ext_none (e : Entry) (hb : Plain base) (h8 : base.length ≤ 8) (i : Nat) :
    storeDirName e 0 base (8 + i) = e (8 + i) := by
  have hlen := baseName_length_le base
  have hlong : ¬ 8 < base.length := by omega
  simp only [storeDirName, findIdx?_dot_base hb, if_neg hlong, Nat.zero_add]
  rw [Buf.store, length_replicate, if_neg (by omega), Buf.store, if_neg (by omega)]

/-- Both encoders store the same base, so that the extension decides. -/
theorem storeDirName_eq_iff_ext {tail : Bytes} (e e' : Entry) (hb : Plain base)
    (h8 : base.length ≤ 8) (h3 : ext.length ≤ 3) (htail : tail = [] ∨ tail = 0x2E :: ext)
    (hcode : encodeName (base ++ tail) = paddedName base ext) :
    (∀ k < 0x0B, storeDirName e 0 (base ++ tail) k = Buf.store e' 0 (encodeName (base ++ tail)) k) ↔
      ∀ i < 3, storeDirName e 0 (base ++ tail) (8 + i) =
        (ext ++ replicate (3 - ext.length) 0x20).getD i 0 := by
  have hbyte : ∀ k < 0x0B, _ := fun k => store_paddedName (k := k) e' h8 h3
  rw [hcode]
  constructor
  · intro hall i hi
    rw [hall (8 + i) (by omega), hbyte _ (by omega), paddedName_ext h8]
  · intro hext k hk
    rw [hbyte k hk]
    by_cases hlt : k < 8
    · rw [storeDirName_base e _ hlt, baseName_eq hb h8 htail, paddedName_base h8 hlt]
    · obtain ⟨i, rfl⟩ := Nat.exists_eq_add_of_le (Nat.le_of_not_lt hlt)
      rw [hext i (by omega), paddedName_ext h8]

/-- **When the two encoders agree** on an 8.3 name. -/
theorem storeDirName_eq_iff (h : ShortName name) (e e' : Entry) :
    (∀ k < 0x0B, storeDirName e 0 name k = Buf.store e' 0 (encodeName name) k) ↔
      0x2E ∈ name ∨ BlankExtension e := by
  cases h with
  | base hb _ h8 =>
    have hnil : ([] : Bytes) = [] ∨ ([] : Bytes) = 0x2E :: [] := .inl rfl
    have hcode : encodeName (name ++ []) = paddedName name [] := by
      rw [append_nil, encodeName_base hb h8]
    have hiff := storeDirName_eq_iff_ext e e' hb h8 (length_nil.trans_le (Nat.zero_le 3)) hnil
      hcode
    rw [append_nil] at hiff
    have hdot : 0x2E ∉ name := fun hmem => (hb _ hmem).2.1 rfl
    rw [hiff, or_iff_right hdot]
    refine forall₂_congr fun i hi => ?_
    rw [storeDirName_ext_none e hb h8, nil_append, length_nil, getD_replicate _ hi]
  | @ext base ext hb _ h8 _ _ h3 =>
    rw [storeDirName_eq_iff_ext e e' hb h8 h3 (.inr rfl) (encodeName_ext hb h8 h3)]
    refine iff_of_true (fun i hi => storeDirName_ext e hb h3 hi) (.inl ?_)
    exact mem_append_right _ mem_cons_self

end Encoders

/-! ## The two calls -/

section Calls

variable {vol : FatVolume} {d : Disk} {img : Image} {path name : Bytes} {c x : Nat} {p : Slot}

section

variable (hg : Geometry vol) (hs : Shows vol d img) (ht : TreeOk vol img)
  (hc : DirCluster vol img c)
include hg hs ht hc

/-- With a free cluster and a vacant slot the directory is made. -/
theorem mkdirAt_ok (hfirst : FirstVacant vol img c p) (hx : vol.Valid x) (hfree : img.next x = 0)
    (name : Bytes) : ∃ new d' img',
      mkdirAt vol c name d = .ok () d' ∧ MadeDir vol img new c p name img' ∧
      Shows vol d' img' := by
  have hreturns : (mkdirAt vol c name d).Returns
      (fun _ d' => ∃ new q img', Shows vol d' img' ∧ FirstVacant vol img c q ∧
        MadeDir vol img new c q name img') fun _ _ => False := by
    refine (mkdirAt_returns hg hs ht hc name).mono (fun _ _ h => h) ?_
    rintro e d' ⟨-, hfull | hused⟩
    · exact hfull x hx hfree
    · exact hused p hfirst
  obtain ⟨⟨⟩, d', hok, new, q, img', hs', hfirst', hmade⟩ := hreturns.ok
  obtain rfl := hfirst.unique hg hfirst'
  exact ⟨new, d', img', hok, hmade, hs'⟩

/-- `f_mkdir` makes the directory in the same slot, if the name is not too long for it. -/
theorem fMkdir_makes (hmiss : NotFound vol d path c name) (hne : name ≠ [])
    (hlen : name.length ≤ 11) (hfirst : FirstVacant vol img c p) (hx : vol.Valid x)
    (hfree : img.next x = 0) :
    ∃ new d' img', fMkdir (some vol) path d = .ok () d' ∧ MadeDir vol img new c p name img' ∧
      Shows vol d' img' := by
  obtain ⟨new, d', img', hmade, hdir, hs'⟩ := mkdirAt_ok hg hs ht hc hfirst hx hfree name
  refine ⟨new, d', img', ?_, hdir, hs'⟩
  rw [fMkdir, withVol, Op.bind_ok hmiss.1]
  simp only [if_neg hne, if_neg (Nat.not_lt.mpr hlen)]
  exact (Op.bind_ok hmiss.2).trans hmade

end

/-- A longer name is refused. -/
theorem fMkdir_refuses (hmiss : NotFound vol d path c name) (hne : name ≠ [])
    (hlen : 11 < name.length) : fMkdir (some vol) path d = .err .invalid d := by
  rw [fMkdir, withVol, Op.bind_ok hmiss.1]
  simp only [if_neg hne, if_pos hlen]
  rfl

end Calls

/-- **`f_mkdir` names a directory as `f_open` names a file** exactly when the name has at most
eleven bytes and a dot, or falls into a slot with a blank extension. On a volume where the entry can
be made: the path leads to a directory in which the 8.3 name is not found, slot `p` is its first
vacant one, and a cluster is free. -/
theorem mkdir_names_like_open_iff (vol : FatVolume) (d : Disk) (path name : Bytes) (c x : Nat)
    (p : Slot) (hg : Geometry vol) (hm : Mirrored vol d) (ht : TreeOk vol (view vol d))
    (hc : DirCluster vol (view vol d) c) (hmiss : NotFound vol d path c name)
    (hname : ShortName name) (hfirst : FirstVacant vol (view vol d) c p) (hx : vol.Valid x)
    (hfree : (view vol d).next x = 0) :
    (∃ file d₁ d₂, fOpen (some vol) path (FA_WRITE ||| FA_CREATE_NEW) d = .ok file d₁ ∧
      fMkdir (some vol) path d = .ok () d₂ ∧
      nameBytes ((view vol d₂).slot p) = nameBytes ((view vol d₁).slot p)) ↔
    name.length ≤ 11 ∧ (0x2E ∈ name ∨ BlankExtension ((view vol d).slot p)) := by
  have hs := hm.shows
  obtain ⟨new₁, d₁, img₁, hopen, -, hs₁, hslot₁⟩ :=
    fOpen_creates hg hs ht hc hmiss.1 hmiss.2 hfirst hx hfree
  by_cases hlen : name.length ≤ 11
  · obtain ⟨new₂, d₂, img₂, hmkdir, hdir, hs₂⟩ :=
      fMkdir_makes hg hs ht hc hmiss hname.ne_nil hlen hfirst hx hfree
    -- both calls take the slot `p`, so the two encodings of the name are compared there
    have hbytes : nameBytes ((view vol d₂).slot p) = nameBytes ((view vol d₁).slot p) ↔
        0x2E ∈ name ∨ BlankExtension ((view vol d).slot p) := by
      rw [nameBytes_eq_iff, hs₁.view_eq, hs₂.view_eq, hslot₁, hdir.entry,
        ← storeDirName_eq_iff hname _ ((view vol d).slot p)]
      refine forall₂_congr fun k hk => ?_
      rw [newDirEntry_of_lt _ _ _ hk, newEntry_of_lt _ _ _ hk]
    rw [and_iff_right hlen, ← hbytes]
    constructor
    · rintro ⟨file', d₁', d₂', hopen', hmkdir', hsame⟩
      cases hopen.symm.trans hopen'
      cases hmkdir.symm.trans hmkdir'
      exact hsame
    · intro hsame
      exact ⟨_, d₁, d₂, hopen, hmkdir, hsame⟩
  · -- only `f_mkdir` refuses a long name
    refine iff_of_false ?_ fun h => hlen h.1
    rintro ⟨-, -, d₂, -, hmkdir, -⟩
    cases hmkdir.symm.trans (fMkdir_refuses hmiss hname.ne_nil (Nat.lt_of_not_le hlen))

/-! ## A slot with an old extension -/

/-- A root directory with one slot, which held the file `OLD.TXT` until it was deleted. -/
def staleDisk : Disk := diskOf (0x0FFFFFF8 :: replicate 2 0x0FFFFFFF)
  [slotBytes (paddedName [0xE5, 0x4C, 0x44] [0x54, 0x58, 0x54]) ATTR_ARCHIVE 0 0]

theorem stale_wellFormed : WellFormed tinyVol (view tinyVol staleDisk) :=
  wellFormed_of_lists [2] [(none, [2])] tiny_geometry (by decide +kernel)

theorem stale_firstVacant : FirstVacant tinyVol (view tinyVol staleDisk) 2 (2, 0) :=
  ⟨[2], [], (range' 1 15).map fun i => (2, i), by decide +kernel,
    by decide, fun _ h => absurd h not_mem_nil, by decide +kernel⟩

/-- `D.A` has a dot, so that the old extension `TXT` is overwritten. -/
theorem mkdir_names_like_open_iff_stale :
    ∃ file d₁ d₂, fOpen (some tinyVol) [0x2F, 0x44, 0x2E, 0x41] (FA_WRITE ||| FA_CREATE_NEW)
        staleDisk = .ok file d₁ ∧
      fMkdir (some tinyVol) [0x2F, 0x44, 0x2E, 0x41] staleDisk = .ok () d₂ ∧
      nameBytes ((view tinyVol d₂).slot (2, 0)) = nameBytes ((view tinyVol d₁).slot (2, 0)) := by
  have hplain : ∀ b : UInt8, b ≠ 0x20 ∧ b ≠ 0x2E ∧ b ≠ 0 → Plain [b] := by
    intro b hb x hx
    rw [mem_singleton.mp hx]
    exact hb
  have hname : ShortName [0x44, 0x2E, 0x41] :=
    .ext (hplain 0x44 (by decide)) (cons_ne_nil _ _) (by decide) (hplain 0x41 (by decide))
      (cons_ne_nil _ _) (by decide)
  have hmiss : NotFound tinyVol staleDisk [0x2F, 0x44, 0x2E, 0x41] 2 [0x44, 0x2E, 0x41] := by
    refine ⟨rfl, ?_⟩
    have hscan : scanDir (view tinyVol staleDisk) [0x44, 0x2E, 0x41] (tinyVol.dirSlots [2]) =
      some none := by decide +kernel
    rw [findEntryInDir_eq tiny_geometry rfl (.last (by decide) (by decide +kernel)), hscan]
    rfl
  exact (mkdir_names_like_open_iff tinyVol staleDisk _ _ 2 3 (2, 0) tiny_geometry
    (tiny_mirrored _) (stale_wellFormed.treeOk tiny_geometry) .root hmiss hname
    stale_firstVacant (by decide) (by decide +kernel)).mpr ⟨by decide, .inl (by decide)⟩

/-- Made as a file, `D` is named `D`; made as a directory it becomes `D.TXT`, with the extension of
the deleted file. And `ABCDEFGH.BIN` is a name for a file but not for a directory. -/
theorem mkdir_keeps_extension : WellFormed tinyVol (view tinyVol staleDisk) ∧
    (∃ file d₁, fOpen (some tinyVol) [0x2F, 0x44] (FA_WRITE ||| FA_CREATE_NEW) staleDisk =
        .ok file d₁ ∧ nameBytes ((view tinyVol d₁).slot (2, 0)) = paddedName [0x44] []) ∧
    (∃ d₂, fMkdir (some tinyVol) [0x2F, 0x44] staleDisk = .ok () d₂ ∧
      nameBytes ((view tinyVol d₂).slot (2, 0)) = paddedName [0x44] [0x54, 0x58, 0x54]) ∧
    (∃ file d₁, fOpen (some tinyVol)
        [0x2F, 0x41, 0x42, 0x43, 0x44, 0x45, 0x46, 0x47, 0x48, 0x2E, 0x42, 0x49, 0x4E]
        (FA_WRITE ||| FA_CREATE_NEW) staleDisk = .ok file d₁) ∧
    fMkdir (some tinyVol)
      [0x2F, 0x41, 0x42, 0x43, 0x44, 0x45, 0x46, 0x47, 0x48, 0x2E, 0x42, 0x49, 0x4E] staleDisk =
        .err .invalid staleDisk := by
  exact ⟨stale_wellFormed, by decide +kernel, by decide +kernel, by decide +kernel, rfl⟩

end PlanckOS.Fat32
