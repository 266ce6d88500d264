import PlanckOS.Fat32.Clusters

/-!
# Open files

A handle keeps a cursor into the chain of its file: the current cluster, or 0 when there is none, a
sector of it and a byte of the sector. `Handle vol img f l` says that the cursor is in place, `l`
being the chain from the handle's start cluster on.

The rounds of the `f_read` and `f_write` loops are described once: `Move` is how the cursor goes on
along the chain, `Turn` adds the cluster that `f_write` appends at its end, and `readStep_returns`
and `writeStep_returns` say what a round does to the image and to the handle. `Kept` is what all
five calls on a handle have in common, whether they succeed or fail: the cursor stays in place and
the changes are confined to the chain and to free clusters.
-/

set_option autoImplicit false

namespace PlanckOS.Fat32

open Lib.Word Lib.Fallible FatVolume List

variable {vol : FatVolume} {s : OpenFile Disk} {buf : Bytes} {l : List Nat}

/-! ## Running operations on a handle -/

section Running

variable {α : Type} {Q : α → OpenFile Disk → Prop}
  {E : FError → OpenFile Disk → Prop} {f : FatVolume → DevOp Disk α} {d' : Disk}

@[simp] theorem getFile_run (s : OpenFile Disk) : getFile s = .ok s.file s :=
  rfl

@[simp] theorem updateFile_run (g : File → File) (s : OpenFile Disk) :
    updateFile g s = .ok () { s with file := g s.file } := rfl

theorem sat_deny (h : E .denied { s with file := { s.file with error := .denied } }) :
    (deny s).Sat Q E := h

theorem onVol_ok {a : α} (h : f vol s.dev = .ok a d') :
    onVol (some vol) f s = .ok a { s with dev := d' } := by
  rw [onVol, withVol, h]

theorem onVol_err {e : FError} (h : f vol s.dev = .err e d') :
    onVol (some vol) f s = .err e { dev := d', file := { s.file with error := e } } := by
  rw [onVol, withVol, h]

theorem ensureCluster_skip (h : s.file.currentCluster ≠ 0) :
    ensureCluster (some vol) s = .ok () s := by
  rw [ensureCluster, Op.bind_ok (getFile_run s), if_neg h]
  rfl

theorem ensureCluster_alloc {new : Nat} (h : s.file.currentCluster = 0)
    (halloc : allocCluster vol s.dev = .ok new d') : ensureCluster (some vol) s =
      .ok () ⟨d', { s.file with startCluster := new, currentCluster := new }⟩ := by
  rw [ensureCluster, Op.bind_ok (getFile_run s), if_pos h, Op.bind_ok (onVol_ok halloc)]
  rfl

/-- `f_write` with its first cluster at hand. -/
theorem fWrite_loop {t : OpenFile Disk} (hwrite : s.file.flags &&& FA_WRITE ≠ 0)
    (hbuf : buf ≠ []) (h : ensureCluster (some vol) s = .ok () t) :
    fWrite (some vol) buf s = Op.loopM (writeStep (some vol) buf) LOOP_BOUND 0 t := by
  rw [fWrite, Op.bind_ok (getFile_run s), if_neg hwrite, if_neg hbuf, Op.bind_ok h]

/-- Reading a field of the mounted volume. -/
theorem onVol_pure (g : FatVolume → α) (s : OpenFile Disk) :
    (onVol (some vol) fun v => pure (g v)) s = .ok (g vol) s := rfl

/-- An error on the volume is recorded in the handle. -/
theorem sat_onVol (h : (f vol s.dev).Sat (fun a d => Q a { s with dev := d })
      (fun e d => E e { dev := d, file := { s.file with error := e } })) :
    (onVol (some vol) f s).Sat Q E := by
  rw [onVol, withVol]
  cases hf : f vol s.dev <;> rw [hf] at h <;> exact h

theorem returns_onVol (h : (f vol s.dev).Returns (fun a d => Q a { s with dev := d })
      (fun e d => E e { dev := d, file := { s.file with error := e } })) :
    (onVol (some vol) f s).Returns Q E := by
  rw [onVol, withVol]
  cases hf : f vol s.dev <;> rw [hf] at h <;> exact h

end Running

/-! ## The cursor -/

/-- The cluster and the sector under the cursor; `l` is the chain of the file. -/
structure Grip (vol : FatVolume) (img : Image) (f : File) (l : List Nat) : Prop where
  chain : (f.startCluster = 0 ∧ l = []) ∨ img.Chain vol f.startCluster l
  current : f.currentCluster = 0 ∨ f.currentCluster ∈ l
  sector : f.sectorInCluster < vol.sectorsPerCluster

/-- The cursor is in place. -/
structure Handle (vol : FatVolume) (img : Image) (f : File) (l : List Nat) : Prop
    extends Grip vol img f l where
  byte : f.byteInSector < 512

/-- The parts of a handle that moving the cursor leaves alone. -/
structure SameFile (f f' : File) : Prop where
  start : f'.startCluster = f.startCluster
  dirSector : f'.dirSector = f.dirSector
  dirOffset : f'.dirOffset = f.dirOffset
  modified : f'.modified = f.modified

theorem SameFile.refl (f : File) : SameFile f f := ⟨rfl, rfl, rfl, rfl⟩

theorem SameFile.trans {f f' f'' : File} (h : SameFile f f') (h' : SameFile f' f'') :
    SameFile f f'' :=
  ⟨h'.start.trans h.start, h'.dirSector.trans h.dirSector, h'.dirOffset.trans h.dirOffset,
    h'.modified.trans h.modified⟩

/-- How the cursor goes on behind a sector: it stays, or enters the next sector, or the next cluster
of the chain. -/
inductive Move (vol : FatVolume) (img : Image) (f : File) : File → Prop
  | stay (h : f.byteInSector < 512) : Move vol img f f
  | sector (h : 512 ≤ f.byteInSector) (hs : f.sectorInCluster + 1 < vol.sectorsPerCluster) :
      Move vol img f { f with byteInSector := 0, sectorInCluster := f.sectorInCluster + 1 }
  | cluster (h : 512 ≤ f.byteInSector) (hs : vol.sectorsPerCluster ≤ f.sectorInCluster + 1)
      (hn : img.next f.currentCluster < END_MARK) :
      Move vol img f { f with
        byteInSector := 0
        sectorInCluster := 0
        currentCluster := img.next f.currentCluster }

/-- The same in `f_write`, where the chain grows at its end. -/
inductive Turn (vol : FatVolume) (img : Image) (f : File) : Image → File → Prop
  | move {f' : File} (h : Move vol img f f') : Turn vol img f img f'
  | grow {new : Nat} (h : 512 ≤ f.byteInSector)
      (hs : vol.sectorsPerCluster ≤ f.sectorInCluster + 1)
      (hn : END_MARK ≤ img.next f.currentCluster) (hv : vol.Valid new)
      (hfree : img.next new = 0) :
      Turn vol img f (img.link f.currentCluster new)
        { f with byteInSector := 0, sectorInCluster := 0, currentCluster := new }

/-- The handle at the end of the chain, where `f_read` gives up and `f_write` finds no cluster. -/
def File.atEnd (f : File) : File := { f with byteInSector := 0, sectorInCluster := 0 }

section Cursor

variable {img img' : Image} {f f' : File}

theorem Grip.valid (h : Grip vol img f l) (hc : f.currentCluster ∈ l) :
    vol.Valid f.currentCluster := by
  rcases h.chain with ⟨-, rfl⟩ | hl
  · exact absurd hc not_mem_nil
  · exact hl.valid_of_mem hc

theorem Grip.lt_max (hg : Geometry vol) (h : Grip vol img f l) :
    f.currentCluster < vol.maxCluster := by
  rcases h.current with h0 | hc
  · have := hg.root_valid.2
    omega
  · exact (h.valid hc).2

theorem Grip.chain_of_mem (h : Grip vol img f l) (hc : f.currentCluster ∈ l) :
    img.Chain vol f.startCluster l := by
  rcases h.chain with ⟨-, rfl⟩ | hl
  · exact absurd hc not_mem_nil
  · exact hl

theorem Move.sector_mod (hmod : (f.sectorInCluster + 1) % 2 ^ 16 = f.sectorInCluster + 1)
    (h : 512 ≤ f.byteInSector) (hs : ¬ vol.sectorsPerCluster ≤ (f.sectorInCluster + 1) % 2 ^ 16) :
    Move vol img f
      { f with byteInSector := 0, sectorInCluster := (f.sectorInCluster + 1) % 2 ^ 16 } := by
  rw [hmod] at hs ⊢
  exact .sector h (Nat.not_le.mp hs)

theorem Move.sameFile (h : Move vol img f f') : SameFile f f' := by
  cases h <;> exact ⟨rfl, rfl, rfl, rfl⟩

variable (hg : Geometry vol) (hend : END_MARK ≤ img.next 0) (hf : Grip vol img f l)
include hg hend hf

/-- A move leaves the cursor on the chain. -/
theorem Move.handle (h : Move vol img f f') : Handle vol img f' l := by
  cases h with
  | stay h => exact ⟨hf, h⟩
  | sector _ hs => exact ⟨⟨hf.chain, hf.current, hs⟩, Nat.zero_lt_succ _⟩
  | cluster _ _ hn =>
    have hcur : f.currentCluster ∈ l := by
      rcases hf.current with h0 | hc
      · rw [h0] at hn
        omega
      · exact hc
    have hnext : img.next f.currentCluster ∈ l :=
      ((hf.chain_of_mem hcur).next_cases hcur).resolve_right (Nat.not_le.mpr hn)
    exact ⟨⟨hf.chain, .inr hnext, hg.spc_pos⟩, Nat.zero_lt_succ _⟩

/-- The table entries outside of `l` are the same, and everything else but them. -/
structure TableOnly (img img' : Image) (l : List Nat) : Prop where
  fat : ∀ x, x ∉ l → img'.fat x = img.fat x
  high : ∀ x, img'.fat x / 2 ^ 28 = img.fat x / 2 ^ 28
  data : img'.data = img.data

/-- **A turn keeps the cursor on the chain, and what it changes is the chain.** -/
theorem Turn.handle (hc : f.currentCluster ∈ l) (h : Turn vol img f img' f') :
    ∃ l', Handle vol img' f' l' ∧ f'.currentCluster ∈ l' ∧ Confined img img' l l' ∧
      SameFile f f' ∧ (∀ x ∈ l, x ∈ l') ∧ TableOnly img img' l' := by
  cases h with
  | move h =>
    have hh := h.handle hg hend hf
    refine ⟨l, hh, ?_, .refl img l, h.sameFile, fun _ hx => hx, ⟨fun _ _ => rfl, fun _ => rfl, rfl⟩⟩
    rcases hh.current with h0 | hcur
    · -- the current cluster is not 0, and neither is a successor inside the chain
      cases h with
      | stay _ => exact hc
      | sector _ _ => exact hc
      | cluster _ _ hn => exact absurd h0 (chain_next_ne_zero (hf.chain_of_mem hc) hc)
    · exact hcur
  | @grow new _ _ hn hv hfree =>
    have hl := chain_link hg (hf.chain_of_mem hc) hc hn hv hfree
    have hnew : new ∈ l ++ [new] := mem_append_right _ mem_cons_self
    refine ⟨l ++ [new], ⟨⟨.inr hl, .inr hnew, hg.spc_pos⟩, Nat.zero_lt_succ _⟩, hnew,
      Confined.link hc hfree, ⟨rfl, rfl, rfl, rfl⟩, fun _ hx => mem_append_left _ hx, ?_, ?_, rfl⟩
    · intro x hx
      have hxt : x ≠ f.currentCluster := fun h => hx (mem_append_left _ (h ▸ hc))
      have hxn : x ≠ new := fun h => hx (h ▸ hnew)
      rw [Image.link, Image.setEntry_ne _ hxt, Image.mark, Image.setEntry_ne _ hxn]
    · intro x
      rw [Image.link, Image.high_setEntry, Image.mark, Image.high_setEntry]

end Cursor

/-! ## Rounds -/

/-- The image with `bytes` written into a cluster at `off`. -/
def Image.storeData (img : Image) (c off : Nat) (bytes : Bytes) : Image :=
  img.setData c (Buf.store (img.data c) off bytes)

section Rounds

variable {img : Image}

variable (hg : Geometry vol)
include hg

/-- The end of a round moves the cursor along the chain, or it is at the end of the chain. -/
theorem advanceWith_returns {σ β : Type} {atEnd : File → FileOp Disk (Lib.Loop.Flow σ β)} {acc : σ}
    {P : Lib.Loop.Flow σ β → OpenFile Disk → Prop} {Q : FError → OpenFile Disk → Prop}
    (hv : view vol s.dev = img) (hc : s.file.currentCluster < vol.maxCluster)
    (hsec : s.file.sectorInCluster < vol.sectorsPerCluster)
    (hmove : ∀ f, Move vol img s.file f → P (.next acc) ⟨s.dev, f⟩)
    (hend : 512 ≤ s.file.byteInSector → vol.sectorsPerCluster ≤ s.file.sectorInCluster + 1 →
      END_MARK ≤ img.next s.file.currentCluster →
      (atEnd s.file ⟨s.dev, s.file.atEnd⟩).Returns P Q) :
    (advanceWith (some vol) atEnd acc s).Returns P Q := by
  have hspc := hg.spc_le
  have hmod : (s.file.sectorInCluster + 1) % 2 ^ 16 = s.file.sectorInCluster + 1 := by omega
  rw [advanceWith]
  apply returns_bind_ok (getFile_run s)
  by_cases hbyte : SECTOR_SIZE ≤ s.file.byteInSector
  · rw [if_pos hbyte]
    apply returns_bind_ok (updateFile_run _ s)
    apply returns_bind_ok (onVol_pure _ _)
    by_cases hlast : vol.sectorsPerCluster ≤ (s.file.sectorInCluster + 1) % 2 ^ 16
    · rw [if_pos hlast]
      apply returns_bind_ok (updateFile_run _ _)
      apply returns_bind_ok (onVol_ok (readFatEntry_shows hg hv hc))
      rw [hmod] at hlast
      by_cases hmark : END_MARK ≤ img.next s.file.currentCluster
      · rw [if_pos hmark]
        exact hend hbyte hlast hmark
      · rw [if_neg hmark]
        apply returns_bind_ok (updateFile_run _ _)
        exact hmove _ (.cluster hbyte hlast (Nat.not_le.mp hmark))
    · rw [if_neg hlast]
      exact hmove _ (.sector_mod hmod hbyte hlast)
  · rw [if_neg hbyte]
    exact hmove _ (.stay (Nat.not_le.mp hbyte))

/-- The end of a round of `f_read`. -/
theorem readAdvance_returns (hv : view vol s.dev = img)
    (hc : s.file.currentCluster < vol.maxCluster)
    (hsec : s.file.sectorInCluster < vol.sectorsPerCluster) (acc : Bytes) :
    (readAdvance (some vol) acc s).Returns
      (fun r s' => s'.dev = s.dev ∧ ((r = .next acc ∧ Move vol img s.file s'.file) ∨
        (r = .done acc ∧ 512 ≤ s.file.byteInSector ∧
          vol.sectorsPerCluster ≤ s.file.sectorInCluster + 1 ∧
          END_MARK ≤ img.next s.file.currentCluster ∧
          s'.file = { s.file.atEnd with currentCluster := 0 }))) fun _ _ => False :=
  advanceWith_returns hg hv hc hsec (fun _ hmove => ⟨rfl, .inl ⟨rfl, hmove⟩⟩)
    fun hbyte hlast hend => returns_bind_ok (updateFile_run _ _)
      ⟨rfl, .inr ⟨rfl, hbyte, hlast, hend, rfl⟩⟩

/-- The end of a round of `f_write`. -/
theorem writeAdvance_returns (hs : Shows vol s.dev img) (hc : vol.Valid s.file.currentCluster)
    (hsec : s.file.sectorInCluster < vol.sectorsPerCluster) (n : Nat) :
    (writeAdvance (some vol) n s).Returns
      (fun r s' => r = .next n ∧ ∃ img', Shows vol s'.dev img' ∧ Turn vol img s.file img' s'.file)
      (fun e s' => s' = ⟨s.dev, { s.file.atEnd with error := e }⟩ ∧ 512 ≤ s.file.byteInSector ∧
        vol.sectorsPerCluster ≤ s.file.sectorInCluster + 1 ∧
        END_MARK ≤ img.next s.file.currentCluster ∧ ∀ x, vol.Valid x → img.next x ≠ 0) := by
  refine advanceWith_returns hg hs.view_eq hc.2 hsec
    (fun _ hmove => ⟨rfl, img, hs, .move hmove⟩) fun hbyte hlast hend => ?_
  -- the chain ends here: a free cluster is linked behind it
  apply returns_bind
  apply returns_onVol
  rcases allocCluster_cases hg hs with ⟨new, d₁, halloc, hv, hfree, hs₁⟩ | ⟨halloc, hnone⟩
  · apply returns_of_ok halloc
    obtain ⟨d₂, hrun, hs₂⟩ := writeFatEntry_shows (v := new) hg hs₁ hc.2
    apply returns_bind_ok (onVol_ok hrun)
    apply returns_bind_ok (updateFile_run _ _)
    exact ⟨rfl, _, hs₂, .grow hbyte hlast hend hv hfree⟩
  · exact returns_of_err halloc ⟨rfl, hbyte, hlast, hend, hnone⟩

/-- Modifying a sector is writing bytes into its cluster. -/
theorem setSector_eq_storeData (hv : view vol s.dev = img) {c t b : Nat} (hc : vol.Valid c)
    (ht : t < vol.sectorsPerCluster) {bytes : Bytes} (hb : b + bytes.length ≤ 512) :
    img.setSector c t (Sector.ofBuf
      ((s.dev ((vol.clusterToLba c + t) % 2 ^ 32)).buf.store b bytes)) =
      img.storeData c (t * 512 + b) bytes := by
  rw [Image.setSector, Image.storeData]
  congr 1
  funext o
  by_cases ho : o / 512 = t
  · have hmod : o % 512 < 512 := Nat.mod_lt _ (by decide)
    have hback : t * 512 + o % 512 = o := by omega
    rw [if_pos ho, Sector.buf_ofBuf _ hmod, Buf.store, Buf.store,
      sector_shows hg hv hc ht hmod, hback]
    by_cases hin : b ≤ o % 512 ∧ o % 512 < b + bytes.length
    · rw [if_pos hin, if_pos (by omega), show o % 512 - b = o - (t * 512 + b) by omega]
    · rw [if_neg hin, if_neg (by omega)]
  · rw [if_neg ho, Buf.store, if_neg (by omega)]

/-- Bytes of the sector under the cursor that a round takes, out of `n` still to do. -/
def File.room (f : File) (n : Nat) : Nat := min (512 - f.byteInSector) n

omit hg in
theorem wsub_byte {b : Nat} (h : b < 512) : wsub SECTOR_SIZE b = 512 - b :=
  wsub_of_le (by decide) h.le

/-- **A round of `f_read`.** -/
theorem readStep_returns (hv : view vol s.dev = img) (hh : Handle vol img s.file l) {toRead : Nat}
    {acc : Bytes} (hacc : acc.length < toRead) :
    (readStep (some vol) toRead acc s).Returns
      (fun r s' => s'.dev = s.dev ∧ ∃ bytes,
        bytes = sectorBytes (s.dev (cursorLba vol s.file)) s.file.byteInSector
          (s.file.room (toRead - acc.length)) ∧
        ((r = .next (acc ++ bytes) ∧
            Move vol img (s.file.advance (s.file.room (toRead - acc.length))) s'.file) ∨
          (r = .done (acc ++ bytes) ∧
            512 ≤ (s.file.advance (s.file.room (toRead - acc.length))).byteInSector ∧
            vol.sectorsPerCluster ≤ s.file.sectorInCluster + 1 ∧
            END_MARK ≤ img.next s.file.currentCluster ∧
            s'.file = { (s.file.advance (s.file.room (toRead - acc.length))).atEnd with
              currentCluster := 0 }))) fun _ _ => False := by
  rw [readStep, if_pos hacc]
  apply returns_bind_ok (getFile_run s)
  apply returns_bind_ok (onVol_ok (readSector_disk _ _))
  rw [wsub_byte hh.byte]
  apply returns_bind_ok (updateFile_run _ _)
  have hmax := hh.toGrip.lt_max hg
  refine (readAdvance_returns (s := ⟨s.dev, s.file.advance _⟩) hg hv hmax hh.sector _).mono ?_
    fun _ _ h => h
  rintro r s' ⟨hdev, hr⟩
  exact ⟨hdev, _, rfl, hr⟩

/-- **A round of `f_write`.** -/
theorem writeStep_returns (hs : Shows vol s.dev img) (hh : Handle vol img s.file l)
    (hc : s.file.currentCluster ∈ l) {n : Nat} (hn : n < buf.length) :
    (writeStep (some vol) buf n s).Returns
      (fun r s' => r = .next (n + s.file.room (buf.length - n)) ∧ ∃ img', Shows vol s'.dev img' ∧
        Turn vol (img.storeData s.file.currentCluster
            (s.file.sectorInCluster * 512 + s.file.byteInSector)
            ((buf.drop n).take (s.file.room (buf.length - n))))
          (s.file.wrote (s.file.room (buf.length - n))) img' s'.file)
      (fun e s' => Shows vol s'.dev (img.storeData s.file.currentCluster
            (s.file.sectorInCluster * 512 + s.file.byteInSector)
            ((buf.drop n).take (s.file.room (buf.length - n)))) ∧
        s'.file = { (s.file.wrote (s.file.room (buf.length - n))).atEnd with error := e } ∧
        512 ≤ (s.file.wrote (s.file.room (buf.length - n))).byteInSector ∧
        vol.sectorsPerCluster ≤ s.file.sectorInCluster + 1 ∧
        END_MARK ≤ img.next s.file.currentCluster ∧ ∀ x, vol.Valid x → img.next x ≠ 0) := by
  have hbyte := hh.byte
  have hvalid := hh.toGrip.valid hc
  have hlen : ((buf.drop n).take (s.file.room (buf.length - n))).length ≤
      512 - s.file.byteInSector := by
    rw [length_take, File.room]
    omega
  -- a sector read, changed and written back is a store into the cluster
  have hstore := setSector_shows hg hs hvalid hh.sector (Sector.ofBuf
    ((s.dev (cursorLba vol s.file)).buf.store s.file.byteInSector
      ((buf.drop n).take (s.file.room (buf.length - n)))))
  rw [cursorLba, setSector_eq_storeData hg hs.view_eq hvalid hh.sector (by omega),
    ← hg.sector_eq hvalid hh.sector] at hstore
  rw [writeStep, if_pos hn]
  apply returns_bind_ok (getFile_run s)
  apply returns_bind_ok (onVol_ok (readSector_disk _ _))
  rw [wsub_byte hbyte]
  apply returns_bind_ok (onVol_ok (writeSector_disk _ _ _))
  apply returns_bind_ok (updateFile_run _ _)
  refine (writeAdvance_returns (s := ⟨_, s.file.wrote _⟩) hg hstore hvalid hh.sector _).mono ?_ ?_
  · rintro r s' ⟨hr, img', hs', hturn⟩
    exact ⟨hr, img', hs', hturn⟩
  · rintro e s' ⟨rfl, hfull⟩
    exact ⟨hstore, rfl, hfull⟩

end Rounds

end PlanckOS.Fat32
