import PlanckOS.Fat32.Content
import PlanckOS.Fat32.Isolation

/-!
# Files as byte arrays

Any number of new files is open at the same time, and `f_write`, `f_read`, `f_lseek` and `f_tell`
calls on their handles come in any order. The system state is the disk with the list of handles; the
specification is a list of byte arrays with a cursor, one for each handle and independent of each
other. `round_trip` says that every result is the one the specification gives, as long as the calls
succeed and the paths of the files lead through directories.

The invariant `Related` gives each handle a chain in which its array is stored (`Stores`), the
chains being disjoint from each other and from the directories. A call on one handle is confined to
its chain and to free clusters, so the arrays of the others stay where they are (`Related.update`).

When a path leads through a prefix match into the data of one of the files, creating the next file
overwrites it (`file_data_overwritten`).
-/

set_option autoImplicit false

namespace PlanckOS.Fat32

open Lib List
open Lib.Transition FatVolume

variable {vol : FatVolume} {b : List ByteFile} {i new : Nat} {p : Slot} {d : Disk}

/-! ## The system and its specification -/

/-- What the user of the files asks for; handles are numbered in the order of their opening. -/
inductive Request where
  | create (path : Bytes)
  | write (i : Nat) (buf : Bytes)
  | read (i len : Nat)
  | lseek (i offset : Nat)
  | tell (i : Nat)
  deriving DecidableEq, Repr

/-- What a successful call returns. -/
inductive Reply where
  | created
  | written (n : Nat)
  | bytes (bs : Bytes)
  | sought
  | position (n : Nat)
  deriving DecidableEq, Repr

/-- A disk and the open handles. -/
structure Files where
  dev : Disk
  handles : List File

/-- The flags of `f_open(FA_READ | FA_WRITE | FA_CREATE_NEW)`. -/
def newFlags : Nat := FA_READ ||| FA_WRITE ||| FA_CREATE_NEW

/-- A call on a handle, when it succeeds. -/
def onHandle {α : Type} (s : Files) (i : Nat) (op : FileOp Disk α) (reply : α → Reply) :
    Option (Files × Reply) :=
  match s.handles[i]? with
  | none => none
  | some f =>
      match op ⟨s.dev, f⟩ with
      | .ok a t => some (⟨t.dev, s.handles.set i t.file⟩, reply a)
      | _ => none

/-- A request, when it succeeds. -/
def serve (vol : FatVolume) (s : Files) : Request → Option (Files × Reply)
  | .create path =>
      match fOpen (some vol) path newFlags s.dev with
      | .ok f d => some (⟨d, s.handles ++ [f]⟩, .created)
      | _ => none
  | .write i buf => onHandle s i (fWrite (some vol) buf) .written
  | .read i len => onHandle s i (fRead (some vol) len) .bytes
  | .lseek i offset => onHandle s i (fLseek (some vol) offset) fun _ => .sought
  | .tell i => onHandle s i getFile fun f => .position (fTell f)

/-- The specification of a call on a handle. -/
def onArray (b : List ByteFile) (i : Nat) (op : ByteFile → ByteFile × Reply) :
    Option (List ByteFile × Reply) :=
  b[i]?.map fun bf => (b.set i (op bf).1, (op bf).2)

/-- The specification: independent byte arrays with cursors. -/
def specServe (b : List ByteFile) : Request → Option (List ByteFile × Reply)
  | .create _ => some (b ++ [.empty], .created)
  | .write i buf => onArray b i fun bf => (bf.write buf, .written buf.length)
  | .read i len => onArray b i fun bf => (bf.skip len, .bytes (bf.peek len))
  | .lseek i offset => onArray b i fun bf => (bf.seek offset, .sought)
  | .tell i => onArray b i fun bf => (bf, .position bf.pos)

/-- The requests considered: new files in directories of the tree, files below 4 GiB, and seeks
inside of the file. -/
def Allowed (vol : FatVolume) (st : Files × List ByteFile) : Request → Prop
  | .create path => PathInTree vol (view vol st.1.dev) path fun _ _ => True
  | .write i buf => ∀ bf, st.2[i]? = some bf → bf.pos + buf.length < 2 ^ 32
  | .lseek i offset => ∀ bf, st.2[i]? = some bf → offset ≤ bf.content.length
  | .read _ _ => True
  | .tell _ => True

/-- The system and its specification side by side, from a disk without open files. -/
abbrev FilesReach (vol : FatVolume) (d : Disk) : Files × List ByteFile → Prop :=
  Reach (fun st => st = (⟨d, []⟩, [])) (Allowed vol) fun st r st' =>
    ∃ reply reply', serve vol st.1 r = some (st'.1, reply) ∧ specServe st.2 r = some (st'.2, reply')

/-! ## The invariant -/

/-- The handles stand for the arrays, each with a chain of its own. -/
structure Related (vol : FatVolume) (img : Image) (handles : List File) (b : List ByteFile)
    (ls : List (List Nat)) : Prop where
  tree : TreeOk vol img
  arrays : handles.length = b.length
  chains : handles.length = ls.length
  stores : ∀ (i : Nat) (f : File) (bf : ByteFile) (l : List Nat), handles[i]? = some f →
    b[i]? = some bf → ls[i]? = some l → Stores vol img f bf l
  apart : ∀ (i j : Nat) (l m : List Nat), ls[i]? = some l → ls[j]? = some m → i ≠ j → ∀ x ∈ l, x ∉ m
  files : ∀ (i : Nat) (l : List Nat), ls[i]? = some l → ∀ x ∈ l, ¬ DirCluster vol img x

section Invariant

variable {img img' : Image} {handles : List File}
  {ls : List (List Nat)} {f : File} {bf : ByteFile} {l l' : List Nat}

/-- A handle only depends on the clusters of its chain. -/
theorem Stores.congr (h : Stores vol img f bf l)
    (hsame : ∀ x ∈ l, img'.fat x = img.fat x ∧ img'.data x = img.data x) :
    Stores vol img' f bf l where
  readable := h.readable
  writable := h.writable
  chain := h.chain.congr fun x hx => by rw [Image.next, Image.next, (hsame x hx).1]
  size := h.size
  small := h.small
  position := h.position
  low := h.low
  high := h.high
  cursor := h.cursor
  data := by
    intro q c o hq ho hlt
    rw [(hsame c (mem_of_getElem? hq)).2]
    exact h.data q c o hq ho hlt

/-- Directory clusters are allocated. -/
theorem DirCluster.next_ne_zero (ht : TreeOk vol img) {c : Nat} (hc : DirCluster vol img c) :
    img.next c ≠ 0 := by
  obtain ⟨l, hl⟩ := ht c hc
  exact chain_next_ne_zero hl hl.head_mem

/-- Every handle has its array and its chain. -/
theorem Related.parts (h : Related vol img handles b ls) (hf : handles[i]? = some f) :
    ∃ bf l, b[i]? = some bf ∧ ls[i]? = some l ∧ Stores vol img f bf l := by
  have hi := (List.getElem?_eq_some_iff.mp hf).1
  have hb := getElem?_eq_getElem (l := b) (h.arrays ▸ hi)
  have hl := getElem?_eq_getElem (l := ls) (h.chains ▸ hi)
  exact ⟨_, _, hb, hl, h.stores i f _ _ hf hb hl⟩

section

variable (h : Related vol img handles b ls) (hl : ls[i]? = some l)
include h hl

/-- A change confined to one chain leaves the directories alone. -/
theorem Related.dirs (hconf : Confined img img' l l') : DirsAgree vol img img' := by
  have hsame : ∀ c, DirCluster vol img c → img'.fat c = img.fat c ∧ img'.data c = img.data c :=
    fun c hc => hconf.frame c (fun hmem => h.files i l hl c hmem hc) (hc.next_ne_zero h.tree)
  constructor
  · intro c hc
    rw [Image.next, Image.next, (hsame c hc).1]
  · intro q hq _
    left
    rw [Image.slot, Image.slot, (hsame q.1 hq).2]

/-- The chain of a handle is allocated. -/
theorem Related.allocated : ∀ x ∈ l, img.next x ≠ 0 := by
  have hi : i < handles.length := h.chains ▸ (List.getElem?_eq_some_iff.mp hl).1
  obtain ⟨_, m, _, hm, hst⟩ := h.parts (getElem?_eq_getElem hi)
  obtain rfl : m = l := Option.some.inj (hm.symm.trans hl)
  exact fun x hx => chain_next_ne_zero hst.chain hx

/-- **A call on one handle keeps the invariant.** What it changes is confined to its chain. -/
theorem Related.update {f' : File} {bf' : ByteFile} (hconf : Confined img img' l l')
    (hs : Stores vol img' f' bf' l') :
    Related vol img' (handles.set i f') (b.set i bf') (ls.set i l') := by
  have hdirs := h.dirs hl hconf
  have hi := (List.getElem?_eq_some_iff.mp hl).1
  -- the chain of another handle: disjoint from `l`, and allocated
  have hother : ∀ j m, ls[j]? = some m → j ≠ i → ∀ x ∈ m, x ∉ l ∧ img.next x ≠ 0 := by
    intro j m hm hj x hx
    exact ⟨h.apart j i m l hm hl hj x hx, h.allocated hm x hx⟩
  have hnew : ∀ j m, ls[j]? = some m → j ≠ i → ∀ x ∈ l', x ∉ m := by
    intro j m hm hj x hx hxm
    obtain ⟨hxl, hxn⟩ := hother j m hm hj x hxm
    exact (hconf.grows x hx).elim hxl hxn
  constructor
  · exact hdirs.treeOk h.tree
  · rw [length_set, length_set, h.arrays]
  · rw [length_set, length_set, h.chains]
  · intro j g bg m hg hbg hm
    by_cases hj : j = i
    · subst hj
      rw [getElem?_set_self (h.chains ▸ hi)] at hg
      rw [getElem?_set_self (h.arrays ▸ h.chains ▸ hi)] at hbg
      rw [getElem?_set_self hi] at hm
      obtain rfl := Option.some.inj hg
      obtain rfl := Option.some.inj hbg
      obtain rfl := Option.some.inj hm
      exact hs
    · rw [getElem?_set_ne (Ne.symm hj)] at hg hbg hm
      refine (h.stores j g bg m hg hbg hm).congr ?_
      intro x hx
      obtain ⟨hxl, hxn⟩ := hother j m hm hj x hx
      exact hconf.frame x hxl hxn
  · intro j k m n hm hn hjk x hx hxn
    by_cases hj : j = i
    · subst hj
      rw [getElem?_set_self hi] at hm
      rw [getElem?_set_ne hjk] at hn
      obtain rfl := Option.some.inj hm
      exact hnew k n hn (Ne.symm hjk) x hx hxn
    · rw [getElem?_set_ne (Ne.symm hj)] at hm
      by_cases hk : k = i
      · subst hk
        rw [getElem?_set_self hi] at hn
        obtain rfl := Option.some.inj hn
        exact hnew j m hm hj x hxn hx
      · rw [getElem?_set_ne (Ne.symm hk)] at hn
        exact h.apart j k m n hm hn hjk x hx hxn
  · intro j m hm x hx hdx
    have hdx' := hdirs.dirCluster_iff.mp hdx
    by_cases hj : j = i
    · subst hj
      rw [getElem?_set_self hi] at hm
      obtain rfl := Option.some.inj hm
      rcases hconf.grows x hx with hmem | hfree
      · exact h.files j l hl x hmem hdx'
      · exact hdx'.next_ne_zero h.tree hfree
    · rw [getElem?_set_ne (Ne.symm hj)] at hm
      exact h.files j m hm x hx hdx'

end

/-- A new file is an empty array. -/
theorem newFile_stores (hg : Geometry vol) (hv : vol.Valid new)
    (hend : END_MARK ≤ img.next new) : Stores vol img (newFile newFlags p new) .empty [new] where
  readable := (by decide : newFlags &&& FA_READ ≠ 0)
  writable := (by decide : newFlags &&& FA_WRITE ≠ 0)
  chain := .last hv hend
  size := rfl
  small := by decide
  position := rfl
  low := by
    show (1 - 1) * vol.clusterSize ≤ 0
    omega
  high := by
    have := hg.spc_pos
    show 0 < 1 * vol.clusterSize
    rw [clusterSize_eq]
    omega
  cursor := ⟨0, rfl, by simp [ByteFile.empty, newFile], hg.spc_pos, Nat.zero_lt_succ _⟩
  data _ _ _ _ _ hlt := absurd hlt (Nat.not_lt_zero _)

/-- A position of an extended list is an old one or the last one. -/
theorem getElem?_concat_cases {α : Type} {xs : List α} {y a : α} {j : Nat}
    (h : (xs ++ [y])[j]? = some a) : xs[j]? = some a ∨ (j = xs.length ∧ a = y) := by
  rw [getElem?_append] at h
  by_cases hlt : j < xs.length
  · rw [if_pos hlt] at h
    exact .inl h
  · rw [if_neg hlt, getElem?_singleton] at h
    by_cases h0 : j - xs.length = 0
    · rw [if_pos h0] at h
      exact .inr ⟨by omega, (Option.some.inj h).symm⟩
    · rw [if_neg h0] at h
      cases h

/-- **Creating a file keeps the invariant.** -/
theorem Related.create (hg : Geometry vol) (h : Related vol img handles b ls)
    (hc : Created vol img new p img') :
    Related vol img' (handles ++ [newFile newFlags p new]) (b ++ [.empty]) (ls ++ [[new]]) := by
  have hfat : ∀ x, img.next x ≠ 0 → img'.fat x = img.fat x := by
    intro x hx
    rw [hc.written.fat]
    exact img.setEntry_ne fun hxn => hx (hxn ▸ hc.fresh)
  have hdirs : DirsAgree vol img img' := by
    constructor
    · intro c hcd
      rw [Image.next, Image.next, hfat c (hcd.next_ne_zero h.tree)]
    · intro q _ hi
      by_cases hq : q = p
      · subst hq
        exact .inr ⟨not_subdirectory_of_regular hc.regular, not_subdirectory_of_not_live hc.dead⟩
      · exact .inl (hc.written.slots q hq hi)
  -- the chains of the open files are neither directories nor free
  have hkeep : ∀ (j : Nat) (m : List Nat), ls[j]? = some m → ∀ x ∈ m,
      (img'.fat x = img.fat x ∧ img'.data x = img.data x) ∧ x ≠ new := by
    intro j m hm x hx
    have hxn := h.allocated hm x hx
    refine ⟨⟨hfat x hxn, hc.written.data x ?_⟩, fun hxnew => hxn (hxnew ▸ hc.fresh)⟩
    rintro rfl
    exact h.files j m hm _ hx hc.place
  have hend : END_MARK ≤ img'.next new := by
    rw [hc.written.next_eq]
    exact img.mark_next_self new
  constructor
  · exact hdirs.treeOk h.tree
  · rw [length_append, length_append, h.arrays]
    rfl
  · rw [length_append, length_append, h.chains]
    rfl
  · intro j g bg m hgj hbg hm
    have harr := h.arrays
    have hch := h.chains
    rcases getElem?_concat_cases hm with hm | ⟨hj, rfl⟩
    · have hjlt := (List.getElem?_eq_some_iff.mp hm).1
      rcases getElem?_concat_cases hgj with hgj | ⟨hj, -⟩
      · rcases getElem?_concat_cases hbg with hbg | ⟨hj, -⟩
        · exact (h.stores j g bg m hgj hbg hm).congr fun x hx => (hkeep j m hm x hx).1
        · omega
      · omega
    · rcases getElem?_concat_cases hgj with hgj | ⟨-, rfl⟩
      · have := (List.getElem?_eq_some_iff.mp hgj).1
        omega
      · rcases getElem?_concat_cases hbg with hbg | ⟨-, rfl⟩
        · have := (List.getElem?_eq_some_iff.mp hbg).1
          omega
        · exact newFile_stores hg hc.valid hend
  · intro j k m n hm hn hjk x hx hxn
    rcases getElem?_concat_cases hm with hm | ⟨hj, rfl⟩
    · rcases getElem?_concat_cases hn with hn | ⟨-, rfl⟩
      · exact h.apart j k m n hm hn hjk x hx hxn
      · exact (hkeep j m hm x hx).2 (mem_singleton.mp hxn)
    · rcases getElem?_concat_cases hn with hn | ⟨hk, -⟩
      · exact (hkeep k n hn x hxn).2 (mem_singleton.mp hx)
      · exact hjk (hj.trans hk.symm)
  · intro j m hm x hx hdx
    rcases getElem?_concat_cases hm with hm | ⟨-, rfl⟩
    · exact h.files j m hm x hx (hdirs.dirCluster_iff.mp hdx)
    · exact (hdirs.dirCluster_iff.mp hdx).next_ne_zero h.tree (mem_singleton.mp hx ▸ hc.fresh)

end Invariant

/-! ## The round trip -/

section Runs

variable {s s' : Files} {reply : Reply}

/-- The disk shows an image in which the handles stand for the arrays. -/
def Simulates (vol : FatVolume) (s : Files) (b : List ByteFile) : Prop :=
  ∃ img ls, Shows vol s.dev img ∧ Related vol img s.handles b ls

/-- A request on the system is matched by the specification. -/
def Matches (vol : FatVolume) (s' : Files) (reply : Reply)
    (spec : Option (List ByteFile × Reply)) : Prop :=
  ∃ b', spec = some (b', reply) ∧ Simulates vol s' b'

/-- A call on a handle that does to it what the specification does to its array. -/
theorem onHandle_matches {α : Type} {op : FileOp Disk α} {mk : α → Reply}
    (spec : ByteFile → ByteFile × Reply) (h : Simulates vol s b)
    (hop : ∀ img f bf l, Shows vol s.dev img → b[i]? = some bf → Stores vol img f bf l →
      (op ⟨s.dev, f⟩).Sat (fun a t => mk a = (spec bf).2 ∧ ∃ img' l', Shows vol t.dev img' ∧
        Stores vol img' t.file (spec bf).1 l' ∧ Confined img img' l l') fun _ _ => True)
    (hrun : onHandle s i op mk = some (s', reply)) : Matches vol s' reply (onArray b i spec) := by
  obtain ⟨img, ls, hs, hrel⟩ := h
  rw [onHandle] at hrun
  cases hf : s.handles[i]? with
  | none =>
    rw [hf] at hrun
    cases hrun
  | some f =>
    obtain ⟨bf, l, hbf, hl, hst⟩ := hrel.parts hf
    rw [hf] at hrun
    have hsat := hop img f bf l hs hbf hst
    cases ho : op ⟨s.dev, f⟩ with
    | ok a t =>
      simp only [ho, Option.some.injEq, Prod.mk.injEq] at hrun
      obtain ⟨rfl, rfl⟩ := hrun
      obtain ⟨hreply, img', l', hs', hst', hconf⟩ := hsat.of_ok ho
      refine ⟨b.set i (spec bf).1, ?_, img', ls.set i l', hs', hrel.update hl hconf hst'⟩
      rw [onArray, hbf, Option.map_some, hreply]
    | err e t =>
      simp only [ho] at hrun
      cases hrun
    | fault w =>
      simp only [ho] at hrun
      cases hrun

/-- A new file at the end of the list. -/
theorem create_matches (hg : Geometry vol) (h : Simulates vol s b) {path : Bytes}
    (hpath : PathInTree vol (view vol s.dev) path fun _ _ => True)
    (hrun : serve vol s (.create path) = some (s', reply)) :
    Matches vol s' reply (specServe b (.create path)) := by
  obtain ⟨img, ls, hs, hrel⟩ := h
  rw [hs.view_eq] at hpath
  have hsat : (openVol vol path newFlags s.dev).Sat
      (fun f d => ∃ new p img', f = newFile newFlags p new ∧ Created vol img new p img' ∧
        Shows vol d img') fun _ _ => True := by
    apply openVol_sat hg hs.view_eq hrel.tree hpath fun _ => trivial
    · -- an existing file is an error
      intro c name p _ _ _
      rw [openExisting, if_pos (by decide)]
      trivial
    · intro c name hc _ _
      exact (openMissing_sat hg hs hrel.tree hc name).mono (fun _ _ h => h) fun _ _ _ => trivial
  rw [serve] at hrun
  cases ho : fOpen (some vol) path newFlags s.dev with
  | ok f d =>
    simp only [ho, Option.some.injEq, Prod.mk.injEq] at hrun
    obtain ⟨rfl, rfl⟩ := hrun
    obtain ⟨new, p, img', rfl, hc, hs'⟩ := hsat.of_ok ho
    exact ⟨b ++ [.empty], rfl, img', ls ++ [[new]], hs', hrel.create hg hc⟩
  | err e d =>
    simp only [ho] at hrun
    cases hrun
  | fault w =>
    simp only [ho] at hrun
    cases hrun

/-- **One request**: the reply is the specified one, and the states stay related. -/
theorem serve_matches (hg : Geometry vol) (h : Simulates vol s b) {r : Request}
    (hok : Allowed vol (s, b) r) (hrun : serve vol s r = some (s', reply)) :
    Matches vol s' reply (specServe b r) := by
  cases r with
  | create path => exact create_matches hg h hok hrun
  | write i buf =>
    refine onHandle_matches (fun bf => (bf.write buf, .written buf.length)) h ?_ hrun
    intro img f bf l hs hbf hst
    refine (fWrite_stores (s := ⟨s.dev, f⟩) hg hs hst (hok bf hbf)).mono ?_ fun _ _ h => h
    rintro n t ⟨rfl, img', l', hs', hst', hconf⟩
    exact ⟨rfl, img', l', hs', hst', hconf⟩
  | read i len =>
    refine onHandle_matches (fun bf => (bf.skip len, .bytes (bf.peek len))) h ?_ hrun
    intro img f bf l hs _ hst
    refine (fRead_stores (s := ⟨s.dev, f⟩) hg hs.view_eq hst len).mono ?_ fun _ _ h => h
    rintro bytes t ⟨rfl, hdev, hst'⟩
    exact ⟨rfl, img, l, hdev.symm ▸ hs, hst', .refl img l⟩
  | lseek i offset =>
    refine onHandle_matches (fun bf => (bf.seek offset, .sought)) h ?_ hrun
    intro img f bf l hs hbf hst
    refine (fLseek_stores (s := ⟨s.dev, f⟩) hg hs.view_eq hst (hok bf hbf)).mono ?_ fun _ _ h => h
    rintro - t ⟨hdev, hst'⟩
    exact ⟨rfl, img, l, hdev.symm ▸ hs, hst', .refl img l⟩
  | tell i =>
    have hcall : onHandle s i getFile (fun f => .position (fTell f)) = some (s', reply) := hrun
    refine onHandle_matches (fun bf => (bf, .position bf.pos)) h ?_ hcall
    intro img f bf l hs _ hst
    exact ⟨congrArg Reply.position hst.position, img, l, hs, hst, .refl img l⟩

/-- Every state reached is related to the specification. -/
theorem simulates_of_reach (hg : Geometry vol) (hm : Mirrored vol d)
    (hw : WellFormed vol (view vol d)) {st : Files × List ByteFile} (h : FilesReach vol d st) :
    Simulates vol st.1 st.2 := by
  refine Reach.invariant (P := fun st => Simulates vol st.1 st.2) ?_ ?_ h
  · rintro st rfl
    refine ⟨_, [], hm.shows, hw.treeOk hg, rfl, rfl, ?_, ?_, ?_⟩
    · exact fun i f bf l hf => nomatch hf
    · exact fun i j l m hl => nomatch hl
    · exact fun i l hl => nomatch hl
  · rintro st r st' hsim hok ⟨reply, reply', hrun, hspec⟩
    obtain ⟨b', hb', hsim'⟩ := serve_matches hg hsim hok hrun
    rw [hb', Option.some.injEq, Prod.mk.injEq] at hspec
    exact hspec.1 ▸ hsim'

/-- **Round trip.** From a well-formed volume, new files in directories of the tree are created,
written, read and positioned in any order. Every reply, and so every result of `f_read` and of
`f_tell`, is that of independent byte arrays with a cursor. -/
theorem round_trip (vol : FatVolume) (d : Disk) (hg : Geometry vol) (hm : Mirrored vol d)
    (hw : WellFormed vol (view vol d)) (s s' : Files) (b : List ByteFile) (r : Request)
    (reply : Reply) (hreach : FilesReach vol d (s, b)) (hok : Allowed vol (s, b) r)
    (hrun : serve vol s r = some (s', reply)) : ∃ b', specServe b r = some (b', reply) := by
  obtain ⟨b', hb', -⟩ := serve_matches hg (simulates_of_reach hg hm hw hreach) hok hrun
  exact ⟨b', hb'⟩

end Runs

/-! ## On the sample volume -/

theorem FilesReach.serve {s s' : Files} {b' : List ByteFile}
    {r : Request} {reply reply' : Reply} (h : FilesReach vol d (s, b))
    (hrun : Fat32.serve vol s r = some (s', reply)) (hspec : specServe b r = some (b', reply'))
    (hok : Allowed vol (s, b) r) : FilesReach vol d (s', b') :=
  .step h hok ⟨reply, reply', hrun, hspec⟩

/-- The new files `/D/Y` and `/X` are written in turn, and `/D/Y` is read back. -/
theorem round_trip_interleaved : ∃ s s' b reply, FilesReach tinyVol secondDisk (s, b) ∧
    s.handles.length = 2 ∧ serve tinyVol s (.read 0 4) = some (s', reply) ∧
    reply = .bytes [0x61, 0x62, 0x63] := by
  have hpath : Allowed tinyVol (⟨secondDisk, []⟩, []) (.create [0x2F, 0x44, 0x2F, 0x59]) := by
    intro p hp
    obtain rfl := hp.eq_of_scan (p := (2, 2)) tiny_geometry (second_chain (by decide))
      (by decide +kernel)
    exact ⟨(second_dirCluster _).mpr (by decide +kernel), trivial⟩
  obtain ⟨⟨s₁, _⟩, h₁, ⟨s₂, _⟩, h₂, ⟨s₃, _⟩, h₃, ⟨s₄, _⟩, h₄, ⟨s₅, _⟩, h₅, ⟨s₆, _⟩, h₆, hlen,
      ⟨s₇, reply⟩, h₇⟩ :
      ∃ r, serve tinyVol ⟨secondDisk, []⟩ (.create [0x2F, 0x44, 0x2F, 0x59]) = some r ∧
      ∃ r', serve tinyVol r.1 (.create [0x2F, 0x58]) = some r' ∧
      ∃ r, serve tinyVol r'.1 (.write 0 [0x61, 0x62]) = some r ∧
      ∃ r', serve tinyVol r.1 (.write 1 [0x78]) = some r' ∧
      ∃ r, serve tinyVol r'.1 (.write 0 [0x63]) = some r ∧
      ∃ r', serve tinyVol r.1 (.lseek 0 0) = some r' ∧ r'.1.handles.length = 2 ∧
      ∃ r, serve tinyVol r'.1 (.read 0 4) = some r := by decide +kernel
  have hreach₁ := FilesReach.serve (.init rfl) h₁ rfl hpath
  have hreach₂ := hreach₁.serve h₂ rfl trivial
  have hreach₃ := hreach₂.serve h₃ rfl fun bf h => Option.some.inj h ▸ by decide
  have hreach₄ := hreach₃.serve h₄ rfl fun bf h => Option.some.inj h ▸ by decide
  have hreach₅ := hreach₄.serve h₅ rfl fun bf h => Option.some.inj h ▸ by decide
  have hreach₆ := hreach₅.serve h₆ rfl fun bf h => Option.some.inj h ▸ by decide
  obtain ⟨b', hspec⟩ := round_trip tinyVol secondDisk tiny_geometry (tiny_mirrored _)
    second_wellFormed s₆ s₇ _ (.read 0 4) reply hreach₆ trivial h₇
  exact ⟨s₆, s₇, _, reply, hreach₆, hlen, h₇, (Prod.mk.inj (Option.some.inj hspec)).2.symm⟩

/-- The new files `/AX` and `/A/H`: `/A` is a directory, but with `/AX` in the first slot the lookup
of `A` returns that file. Creating `/A/H` writes a directory entry over its first bytes. -/
theorem file_data_overwritten :
    Geometry tinyVol ∧ Mirrored tinyVol sampleDisk ∧ WellFormed tinyVol sampleImage ∧
    namedSlot sampleImage [0x41] (tinyVol.dirSlots [2]) = some (2, 2) ∧
    Subdirectory (sampleImage.slot (2, 2)) ∧
    runOutputs (serve tinyVol) ⟨sampleDisk, []⟩ [.create [0x2F, 0x41, 0x58], .write 0 [0],
      .create [0x2F, 0x41, 0x2F, 0x48], .lseek 0 0, .read 0 1] =
        some [.created, .written 1, .created, .sought, .bytes [0x48]] ∧
    runOutputs specServe [] [.create [0x2F, 0x41, 0x58], .write 0 [0],
      .create [0x2F, 0x41, 0x2F, 0x48], .lseek 0 0, .read 0 1] =
        some [.created, .written 1, .created, .sought, .bytes [0]] :=
  ⟨tiny_geometry, tiny_mirrored _, sample_wellFormed, by decide +kernel, by decide +kernel,
    by decide +kernel, by decide +kernel⟩

end PlanckOS.Fat32
