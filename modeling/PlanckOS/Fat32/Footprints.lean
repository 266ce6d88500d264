import PlanckOS.Fat32.Shortage
import PlanckOS.Fat32.Recycle

/-!
# `f_unlink` and `f_rename`, byte by byte

What the two calls do to the device, not only to what a volume shows of it.

`f_unlink` of an entry of the tree sets the first byte of its slot, clears the table entries of its
chain in every copy and leaves all other bytes alone; the free count grows by the length of the
chain (`unlink_frees_chain`).

`f_rename` changes nothing when it fails. When it succeeds, it writes one slot and one byte, also
when the two slots share a sector (`fRename_sat_bytes`). That the slot written is one of the
directory that the new path names, and the byte that of the entry that the old path names, depends
on the lookups: `rename_moves_slot_iff` says exactly when. An entry whose name only starts with a
path component leads elsewhere (`rename_into_file`).
-/

set_option autoImplicit false

namespace PlanckOS.Fat32

open Lib.Fallible FatVolume List

variable {d : Disk} {p q p' q' : Slot} {k c i x start : Nat} {img : Image} {l : List Nat}
  {buf : Buf}

/-! ## Bytes of a device -/

/-- A byte of a device: its sector, and its offset there. -/
abbrev BytePos := Nat × Nat

/-- The byte at a position. -/
def byteOn (d : Disk) (a : BytePos) : UInt8 := (d a.1).buf a.2

/-- Between two devices only bytes of `written` differ. -/
def Frame (d d' : Disk) (written : BytePos → Prop) : Prop :=
  ∀ a, a.2 < 512 → ¬ written a → byteOn d' a = byteOn d a

/-- Byte `k` of a slot, with the wrapping of the sector numbers. -/
def FatVolume.slotByte (vol : FatVolume) (p : Slot) (k : Nat) : BytePos :=
  ((vol.clusterToLba p.1 + p.2 / 16) % 2 ^ 32, p.2 % 16 * 32 + k)

/-- The bytes of a table entry, in all copies. -/
def FatVolume.EntryByte (vol : FatVolume) (x : Nat) (a : BytePos) : Prop :=
  ∃ k < vol.numFats, a.1 = vol.fatRegionLba + k * vol.sectorsPerFat + x / 128 ∧
    x % 128 * 4 ≤ a.2 ∧ a.2 < x % 128 * 4 + 4

/-- The device with `bytes` stored in a slot, from byte `k` on. -/
def FatVolume.setSlotOn (vol : FatVolume) (d : Disk) (p : Slot) (k : Nat) (bytes : Bytes) :
    Disk := fun lba =>
  if lba = (vol.slotByte p k).1 then
    Sector.ofBuf ((d lba).buf.store (vol.slotByte p k).2 bytes)
  else d lba

theorem Frame.trans {d₁ d₂ d₃ : Disk} {w w' : BytePos → Prop} (h : Frame d₁ d₂ w)
    (h' : Frame d₂ d₃ w') : Frame d₁ d₃ fun a => w a ∨ w' a := by
  intro a ha hw
  rw [not_or] at hw
  rw [h' a ha hw.2, h a ha hw.1]

section Slots

variable {vol : FatVolume} {j : Nat} {bytes : Bytes}

/-- Slots do not overlap: positions in them agree only when the slots start at one place. -/
theorem slotByte_inj (hj : j < 32) (hk : k < 32) (h : vol.slotByte p j = vol.slotByte q k) :
    vol.slotByte p 0 = vol.slotByte q 0 ∧ j = k := by
  obtain ⟨hsector, hoff⟩ := Prod.mk.inj h
  refine ⟨Prod.ext hsector ?_, ?_⟩
  · simp only [slotByte]
    omega
  · omega

theorem slotByte_congr (h : vol.slotByte p 0 = vol.slotByte q 0) (k : Nat) :
    vol.slotByte p k = vol.slotByte q k := by
  obtain ⟨hsector, hoff⟩ := Prod.mk.inj h
  refine Prod.ext hsector ?_
  simp only [slotByte]
  omega

theorem slotByte_lt (hk : k < 32) : (vol.slotByte p k).2 < 512 := by
  simp only [slotByte]
  omega

/-- The bytes stored. -/
theorem byteOn_setSlotOn (hj : j < bytes.length) (hlen : k + bytes.length ≤ 32) :
    byteOn (vol.setSlotOn d p k bytes) (vol.slotByte p (k + j)) = bytes.getD j 0 := by
  have hoff : (vol.slotByte p (k + j)).2 = (vol.slotByte p k).2 + j := by
    simp only [slotByte]
    omega
  have hsector : (vol.slotByte p (k + j)).1 = (vol.slotByte p k).1 := rfl
  rw [byteOn, setSlotOn, if_pos hsector, Sector.buf_ofBuf _ (slotByte_lt (by omega)), hoff,
    Buf.store, if_pos (by omega), Nat.add_sub_cancel_left]

/-- All other bytes. -/
theorem setSlotOn_frame (vol : FatVolume) (d : Disk) (p : Slot) (k : Nat) (bytes : Bytes) :
    Frame d (vol.setSlotOn d p k bytes)
      fun a => ∃ j < bytes.length, a = vol.slotByte p (k + j) := by
  rintro ⟨lba, off⟩ hoff hw
  simp only [byteOn, setSlotOn]
  split
  next hsector =>
    rw [Sector.buf_ofBuf _ hoff, Buf.store, if_neg]
    rintro ⟨hle, hlt⟩
    refine hw ⟨off - (vol.slotByte p k).2, by omega, Prod.ext hsector ?_⟩
    simp only [slotByte] at hle ⊢
    omega
  next => rfl

/-- The sector with the slot, in a buffer of the cluster where some bytes of the slot are replaced.
-/
theorem slot_sector (hi : i < vol.slotsPerCluster) :
    (Sector.ofBuf fun j => (vol.clusterOn d c).store (i * DIR_SIZE + k) bytes
      (i / 16 * SECTOR_SIZE + j)) =
      Sector.ofBuf ((d (vol.slotByte (c, i) k).1).buf.store (vol.slotByte (c, i) k).2 bytes) := by
  have hslot := slot_end hi
  rw [clusterSize_eq] at hslot
  have hstart : (vol.slotByte (c, i) k).2 + i / 16 * 512 = i * DIR_SIZE + k := by
    simp only [slotByte, DIR_SIZE]
    omega
  apply Sector.ext_buf
  intro j hj
  rw [Sector.buf_ofBuf _ hj, Sector.buf_ofBuf _ hj, Buf.store, Buf.store, SECTOR_SIZE]
  by_cases hin : (vol.slotByte (c, i) k).2 ≤ j ∧ j < (vol.slotByte (c, i) k).2 + bytes.length
  · rw [if_pos hin, if_pos (by omega)]
    congr 1
    omega
  · rw [if_neg hin, if_neg (by omega), clusterOn, if_pos (by omega),
      show (i / 16 * 512 + j) / 512 = i / 16 by omega, show (i / 16 * 512 + j) % 512 = j by omega]
    rfl

/-- The other sectors of the buffer. -/
theorem slot_other_sector {n : Nat} (hn : n < vol.sectorsPerCluster) (hne : n ≠ i / 16)
    (hlen : k + bytes.length ≤ 32) :
    (Sector.ofBuf fun j => (vol.clusterOn d c).store (i * DIR_SIZE + k) bytes
      (n * SECTOR_SIZE + j)) =
      d ((vol.clusterToLba c + n) % 2 ^ 32) := by
  apply Sector.ext_buf
  intro j hj
  have hout :
      ¬ (i * DIR_SIZE + k ≤ n * 512 + j ∧ n * 512 + j < i * DIR_SIZE + k + bytes.length) := by
    rw [DIR_SIZE]
    omega
  rw [Sector.buf_ofBuf _ hj, Buf.store, SECTOR_SIZE, if_neg hout, clusterOn, if_pos (by omega),
    show (n * 512 + j) / 512 = n by omega, show (n * 512 + j) % 512 = j by omega]

/-- **Writing a cluster back with some bytes of one slot replaced** changes these bytes of the
device. The number of the cluster is arbitrary. -/
theorem writeCluster_slot (hspc : vol.sectorsPerCluster ≤ 2 ^ 32)
    (hi : i < vol.slotsPerCluster) (hlen : k + bytes.length ≤ 32) :
    vol.writeCluster c ((vol.clusterOn d c).store (i * DIR_SIZE + k) bytes) d =
      .ok () (vol.setSlotOn d (c, i) k bytes) := by
  have hslot := slot_end hi
  rw [clusterSize_eq] at hslot
  have haddr : (vol.clusterToLba c + i / 16) % 2 ^ 32 = (vol.slotByte (c, i) k).1 := rfl
  -- the sectors in front of the slot, and those behind it, get what they hold
  have hrun : ∀ n ≤ vol.sectorsPerCluster, Op.forUpto (fun m =>
      (writeSector ((vol.clusterToLba c + m) % 2 ^ 32) (Sector.ofBuf fun j =>
        (vol.clusterOn d c).store (i * DIR_SIZE + k) bytes (m * SECTOR_SIZE + j)) :
          DevOp Disk Unit)) n d =
      .ok () (if i / 16 < n then vol.setSlotOn d (c, i) k bytes else d) := by
    intro n
    induction n with
    | zero =>
      intro _
      rw [if_neg (by omega)]
      rfl
    | succ n ih =>
      intro hn
      refine (Op.bind_ok (ih (by omega))).trans ((writeSector_disk _ _ _).trans ?_)
      congr 1
      by_cases heq : n = i / 16
      · subst heq
        rw [if_neg (by omega), if_pos (by omega), slot_sector hi, haddr]
        funext lba
        rw [setSlotOn]
        split
        next h => rw [h]
        next => rfl
      · rw [slot_other_sector hn heq hlen]
        by_cases hlt : i / 16 < n
        · rw [if_pos hlt, if_pos (by omega)]
          funext lba
          split
          next h =>
            have hne : lba ≠ (vol.slotByte (c, i) k).1 := by
              rw [← haddr]
              omega
            rw [setSlotOn, if_neg hne, h]
          next => rfl
        · rw [if_neg hlt, if_neg (by omega)]
          funext lba
          split
          next h => rw [h]
          next => rfl
  have hall := hrun _ le_rfl
  rw [if_pos (by omega)] at hall
  exact hall

end Slots

/-! ## Table entries -/

section Table

variable {vol : FatVolume}

/-- Setting an entry changes no other byte: the copies agree, so that copying the sector of the
first one to the others leaves them as they are. -/
theorem setEntryOn_frame (hg : Geometry vol) (hm : Mirrored vol d) (hc : c < vol.maxCluster)
    (v : Nat) : Frame d (vol.setEntryOn d c v) (vol.EntryByte c) := by
  have hmax := hg.maxCluster_eq
  have hsec : c / 128 < vol.sectorsPerFat := by omega
  rintro ⟨lba, off⟩ hoff hw
  simp only [byteOn, setEntryOn]
  split
  next h =>
    obtain ⟨k, hk, rfl⟩ := h
    rw [hg.copySector_eq hk hc, hm k hk _ hsec, hg.fatSector_eq hc, fatOffset_column, mergeEntry,
      Sector.buf_ofBuf _ hoff, Buf.store, if_neg]
    exact fun hin => hw ⟨k, hk, hg.copySector_eq hk hc, hin⟩
  next => rfl

theorem clearedOn_frame (hg : Geometry vol) (hs : Shows vol d img) (hl : ∀ x ∈ l, vol.Valid x) :
    Frame d (vol.clearedOn d l) fun a => ∃ x ∈ l, vol.EntryByte x a := by
  induction l generalizing d img with
  | nil => exact fun _ _ _ => rfl
  | cons b rest ih =>
    rw [forall_mem_cons] at hl
    intro a ha hw
    have hfirst := setEntryOn_frame hg hs.mirrored hl.1.2 0
    have hrest := ih (setEntryOn_shows hg hs hl.1.2 0) hl.2
    refine hfirst.trans hrest a ha ?_
    rintro (hb | ⟨x, hx, hb⟩)
    · exact hw ⟨b, mem_cons_self, hb⟩
    · exact hw ⟨x, mem_cons_of_mem _ hx, hb⟩

/-- Slots of clusters lie behind the table. -/
theorem EntryByte.not_slot (hg : Geometry vol) (hp : vol.Valid p.1)
    (hi : p.2 < vol.slotsPerCluster) (hx : vol.Valid x) : ¬ vol.EntryByte x (vol.slotByte p k) := by
  have hend := slot_end hi
  have hmax := hg.maxCluster_eq
  have hdata := hg.data_eq
  have hxmax := hx.2
  rw [clusterSize_eq] at hend
  rintro ⟨j, hj, hsector, -⟩
  have hcopy : j * vol.sectorsPerFat + vol.sectorsPerFat ≤ vol.numFats * vol.sectorsPerFat := by
    rw [← Nat.succ_mul]
    exact Nat.mul_le_mul_right _ hj
  simp only [slotByte, hg.sector_eq hp (show p.2 / 16 < vol.sectorsPerCluster by omega)] at hsector
  omega

end Table

/-! ## `f_unlink` -/

/-- What the lookup of a path yields. -/
def PathYields (vol : FatVolume) (d : Disk) (path : Bytes) (p : Slot) : Prop :=
  ∃ c name, resolvePath vol path d = .ok (c, name) d ∧ name ≠ [] ∧
    vol.findEntryInDir c name d = .ok (some p) d

/-- The clusters that an entry owns: none, or a chain. -/
def Owns (vol : FatVolume) (img : Image) (start : Nat) (l : List Nat) : Prop :=
  (start = 0 ∧ l = []) ∨ img.Chain vol start l

/-- The slot `p` is marked as deleted, the entries of the clusters `l` are free in every copy of the
table, with their top four bits, and nothing else changed. -/
structure UnlinkedBytes (vol : FatVolume) (d : Disk) (p : Slot) (l : List Nat) (d' : Disk) :
    Prop where
  slot : byteOn d' (vol.slotByte p 0) = 0xE5
  table : ∀ k < vol.numFats, ∀ x ∈ l, rawEntry vol d' k x = rawEntry vol d k x / 2 ^ 28 * 2 ^ 28
  frame : Frame d d' fun a => a = vol.slotByte p 0 ∨ ∃ x ∈ l, vol.EntryByte x a

section Unlink

variable {vol : FatVolume}

theorem store_singleton (buf : Buf) (k : Nat) (b : UInt8) : buf.store k [b] = buf.set k b := by
  funext i
  rw [Buf.store, Buf.set, length_singleton]
  by_cases hi : i = k
  · rw [if_pos hi, if_pos (by omega), hi, Nat.sub_self]
    rfl
  · rw [if_neg hi, if_neg (by omega)]

/-- Marking a slot of any cluster number as deleted. -/
theorem writeCluster_deleted (hspc : vol.sectorsPerCluster ≤ 2 ^ 32)
    (hi : i < vol.slotsPerCluster) :
    vol.writeCluster c ((vol.clusterOn d c).set (i * DIR_SIZE) 0xE5) d =
      .ok () (vol.setSlotOn d (c, i) 0 [0xE5]) := by
  have hrun : (vol.writeCluster c ((vol.clusterOn d c).store (i * DIR_SIZE + 0) [0xE5]) :
      DevOp Disk Unit) d = .ok () (vol.setSlotOn d (c, i) 0 [0xE5]) :=
    writeCluster_slot hspc hi (by decide)
  rwa [Nat.add_zero, store_singleton] at hrun

theorem Owns.valid (h : Owns vol img start l) : ∀ x ∈ l, vol.Valid x := by
  rcases h with ⟨-, rfl⟩ | hl
  · exact forall_mem_nil _
  · exact fun x hx => hl.valid_of_mem hx

theorem Owns.nodup (hg : Geometry vol) (h : Owns vol img start l) : l.Nodup := by
  rcases h with ⟨-, rfl⟩ | hl
  · exact nodup_nil
  · exact hl.nodup hg.not_stop

theorem Owns.used (h : Owns vol img start l) : ∀ x ∈ l, img.next x ≠ 0 := by
  rcases h with ⟨-, rfl⟩ | hl
  · exact forall_mem_nil _
  · exact fun x hx => chain_next_ne_zero hl hx

/-- Every entry of a well-formed tree owns its clusters. -/
theorem WellFormed.owns (hw : WellFormed vol img) (hlive : Owner.Live vol img (some p)) :
    ∃ l, Owns vol img (startOf (img.slot p)) l := by
  rcases hw.heads _ hlive with h0 | ⟨l, hl⟩
  · exact ⟨[], .inl ⟨h0, rfl⟩⟩
  · exact ⟨l, .inr hl⟩

section

variable (hg : Geometry vol) (hs : Shows vol d img) (hp : vol.Valid p.1)
  (hi : p.2 < vol.slotsPerCluster) (hl : Owns vol img (startOf (img.slot p)) l)
include hg hs hp hi hl

/-- The device that `f_unlink` leaves. -/
theorem unlinkAt_run :
    ∃ img₁, Shows vol (vol.setSlotOn d p 0 [0xE5]) img₁ ∧ SlotWritten vol img img₁ p ∧
      unlinkAt vol p.1 p.2 d =
        .ok () (vol.clearedOn (vol.setSlotOn d p 0 [0xE5]) l) := by
  have hspc : vol.sectorsPerCluster ≤ 2 ^ 32 := hg.spc_le.trans (by norm_num)
  have hdata := clusterOn_eq hg hs.view_eq hp
  obtain ⟨d₁, img₁, hrun₁, hs₁, hwritten, -⟩ := (deletedEntry_edit p.2).write hg hs hp hi
  rw [← hdata] at hrun₁
  obtain ⟨-, rfl⟩ := Outcome.ok.inj (hrun₁.symm.trans (writeCluster_deleted hspc hi))
  refine ⟨img₁, hs₁, hwritten, ?_⟩
  have hstart : startOf (entryAt (vol.clusterOn d p.1) p.2) = startOf (img.slot p) := by
    rw [hdata, Image.slot]
  rw [unlinkAt, Op.bind_ok readCluster_run, Op.bind_ok hrun₁, hstart]
  rcases hl with ⟨h0, rfl⟩ | hl
  · exact releaseChain_stop (by omega)
  · refine releaseChain_run hg hs₁ ?_
    rwa [Image.Chain, hwritten.next_eq]

/-- The bytes that `f_unlink` leaves. -/
theorem unlinkAt_bytes : ∃ d' img', unlinkAt vol p.1 p.2 d = .ok () d' ∧ Shows vol d' img' ∧
      UnlinkedBytes vol d p l d' ∧ (∀ x ∈ l, img'.next x = 0) ∧
      ∀ x, x ∉ l → img'.next x = img.next x := by
  obtain ⟨img₁, hs₁, hwritten, hrun⟩ := unlinkAt_run hg hs hp hi hl
  obtain ⟨img', hs', hrel⟩ := clearedOn_shows hg hs₁ hl.valid
  have hcleared := clearedOn_frame hg hs₁ hl.valid
  have hframe := (setSlotOn_frame vol d p 0 [0xE5]).trans hcleared
  refine ⟨_, img', hrun, hs', ⟨?_, ?_, ?_⟩, hrel.free, ?_⟩
  · rw [hcleared _ (slotByte_lt (by decide)) fun ⟨x, hx, hb⟩ =>
      EntryByte.not_slot hg hp hi (hl.valid x hx) hb]
    exact byteOn_setSlotOn (j := 0) (by decide) (by decide)
  · intro k hk x hx
    have hmax := (hl.valid x hx).2
    have hfree : img'.fat x % 2 ^ 28 = 0 := hrel.free x hx
    have hhigh := hrel.high x
    rw [hwritten.fat] at hhigh
    rw [hs'.rawEntry_eq hg hk hmax, hs.rawEntry_eq hg hk hmax]
    omega
  · intro a ha hw
    refine hframe a ha ?_
    rintro (⟨j, hj, rfl⟩ | hx)
    · obtain rfl : j = 0 := Nat.lt_one_iff.mp hj
      exact hw (.inl rfl)
    · exact hw (.inr hx)
  · intro x hx
    rw [Image.next, hrel.fat x hx, ← Image.next, hwritten.next_eq]

end

/-- **`f_unlink` frees exactly the chain of the entry.** On a well-formed volume, when the lookup of
a path yields an entry of the tree other than `.` and `..`, the call succeeds. It marks the slot,
clears the entries of the chain in every copy of the table, and changes no other byte of the device.
`f_getfree` then counts as many more clusters as the chain has. -/
theorem unlink_frees_chain (vol : FatVolume) (d : Disk) (path : Bytes) (p : Slot)
    (hg : Geometry vol) (hm : Mirrored vol d) (hw : WellFormed vol (view vol d))
    (hpath : PathYields vol d path p) (hlive : Owner.Live vol (view vol d) (some p)) :
    ∃ d' l, fUnlink (some vol) path d = .ok () d' ∧
      Owns vol (view vol d) (startOf ((view vol d).slot p)) l ∧ UnlinkedBytes vol d p l d' ∧
      ∃ free total, fGetfree (some vol) d = .ok (free, total) d ∧
        fGetfree (some vol) d' = .ok (free + l.length, total) d' := by
  obtain ⟨l, hl⟩ := hw.owns hlive
  obtain ⟨hdir, hi, -, -⟩ := hlive
  obtain ⟨m, hm'⟩ := hw.treeOk hg _ hdir
  obtain ⟨d', img', hrun, hs', hbytes, hfree, hrest⟩ :=
    unlinkAt_bytes hg hm.shows hm'.head_valid hi hl
  obtain ⟨c, name, hresolve, hname, hfind⟩ := hpath
  refine ⟨d', l, ?_, hl, hbytes, _, _, fGetfree_shows hg rfl, ?_⟩
  · rw [fUnlink, withVol, Op.bind_ok hresolve]
    simp only [if_neg hname]
    rw [withEntry_some _ hfind]
    exact hrun
  rw [fGetfree_shows hg hs'.view_eq,
    freeCount_add (hl.nodup hg) fun x hx => ⟨hl.valid x hx, hl.used x hx⟩]
  intro x _
  by_cases hx : x ∈ l
  · exact ⟨fun _ => .inl hx, fun _ => hfree x hx⟩
  · rw [hrest x hx]
    exact ⟨.inr, fun h => h.resolve_left hx⟩

end Unlink

/-- Two copies of the table: cluster `c` is sector `c + 1`. -/
def pairVol : FatVolume := { tinyVol with numFats := 2, dataRegionLba := 3 }

/-- The chain from 3 goes on in 5. -/
def pairTable : List Nat := [0x0FFFFFF8, 0x0FFFFFFF, 0x0FFFFFFF, 5, 0x0FFFFFFF, 0x0FFFFFFF]

/-- A root directory with the file `F` of 600 bytes in the clusters 3 and 5 and the file `G` in 4.
-/
def pairDisk : Disk :=
  diskOf pairTable [pairTable.flatMap bytes32, fileSlot [0x46] 3 600 ++ fileSlot [0x47] 4 1]

theorem pair_geometry : Geometry pairVol := by constructor <;> decide

theorem pair_mirrored : Mirrored pairVol pairDisk := by
  intro k hk j hj
  simp only [pairVol, tinyVol] at hk hj
  interval_cases k <;> interval_cases j <;> rfl

theorem pair_wellFormed : WellFormed pairVol (view pairVol pairDisk) :=
  wellFormed_of_lists [2] [(none, [2]), (some (2, 0), [3, 5]), (some (2, 1), [4])] pair_geometry
    (by decide +kernel)

/-- Both clusters of `F` become free in both copies. -/
theorem unlink_frees_chain_pair : ∃ d', fUnlink (some pairVol) [0x2F, 0x46] pairDisk = .ok () d' ∧
      UnlinkedBytes pairVol pairDisk (2, 0) [3, 5] d' ∧
      fGetfree (some pairVol) pairDisk = .ok (122, 126) pairDisk ∧
      fGetfree (some pairVol) d' = .ok (124, 126) d' := by
  have hfind : pairVol.findEntryInDir 2 [0x46] pairDisk = .ok (some (2, 0)) pairDisk := by
    have hroot : (view pairVol pairDisk).Chain pairVol 2 [2] := by decide +kernel
    have hscan : scanDir (view pairVol pairDisk) [0x46] (pairVol.dirSlots [2]) =
      some (some (2, 0)) := by decide +kernel
    rw [findEntryInDir_eq pair_geometry rfl hroot, hscan]
    rfl
  have hlive : Owner.Live pairVol (view pairVol pairDisk) (some (2, 0)) :=
    ⟨.root, by decide, by decide +kernel, by decide +kernel⟩
  have hcount : (view pairVol pairDisk).freeCount 2 126 = 122 := by decide +kernel
  obtain ⟨d', l, hrun, howns, hbytes, free, total, hfree, hfree'⟩ :=
    unlink_frees_chain pairVol pairDisk [0x2F, 0x46] (2, 0) pair_geometry pair_mirrored
      pair_wellFormed ⟨2, [0x46], rfl, by decide, hfind⟩ hlive
  obtain rfl : l = [3, 5] := by
    rcases howns with ⟨h0, -⟩ | hl
    · exact absurd h0 (by decide +kernel)
    · exact hl.unique pair_geometry.not_stop (by decide +kernel)
  have hbefore : fGetfree (some pairVol) pairDisk = .ok (122, 126) pairDisk :=
    hcount ▸ fGetfree_shows pair_geometry rfl
  obtain ⟨hpair, -⟩ := Outcome.ok.inj (hfree.symm.trans hbefore)
  obtain ⟨rfl, rfl⟩ := Prod.mk.inj hpair
  exact ⟨d', hrun, hbytes, hfree, hfree'⟩

/-! ## `f_rename` -/

/-- The slot that `f_rename` finds for the old path. -/
def FindsSource (vol : FatVolume) (d : Disk) (path : Bytes) (p : Slot) : Prop :=
  ∃ c name, resolvePath vol path d = .ok (c, name) d ∧ vol.findEntryInDir c name d = .ok (some p) d

/-- The slot that `f_rename` finds for the new path. -/
def FindsTarget (vol : FatVolume) (d : Disk) (path : Bytes) (q : Slot) (name : Bytes) : Prop :=
  ∃ c buf, resolvePath vol path d = .ok (c, name) d ∧ findSlot vol c d = .ok (q.1, q.2, buf) d

/-- The name and bytes 0x0B to 0x1F of the entry. -/
def movedBytes (e : Entry) (name : Bytes) : Bytes :=
  encodeName name ++ (range 21).map fun k => e (0x0B + k)

/-- The device after the entry in `p` moved to `q`. -/
def FatVolume.movedOn (vol : FatVolume) (d : Disk) (p q : Slot) (name : Bytes) : Disk :=
  vol.setSlotOn
    (vol.setSlotOn d q 0 (movedBytes (entryAt (vol.clusterOn d p.1) p.2) name)) p 0 [0xE5]

/-- The slot `q` was free and holds the name and the rest of slot `p`, which is marked as deleted.
Nothing else changed. -/
structure RenamedBytes (vol : FatVolume) (d : Disk) (p q : Slot) (name : Bytes) (d' : Disk) :
    Prop where
  vacant : byteOn d (vol.slotByte q 0) = 0 ∨ byteOn d (vol.slotByte q 0) = 0xE5
  source : byteOn d' (vol.slotByte p 0) = 0xE5
  name : ∀ k < 11, byteOn d' (vol.slotByte q k) = (encodeName name).getD k 0
  rest : ∀ k, 11 ≤ k → k < 32 → byteOn d' (vol.slotByte q k) = byteOn d (vol.slotByte p k)
  frame : Frame d d' fun a => a = vol.slotByte p 0 ∨ ∃ k < 32, a = vol.slotByte q k

section Rename

variable {vol : FatVolume} {d' : Disk} {name target path : Bytes}

theorem movedBytes_length (e : Entry) (name : Bytes) : (movedBytes e name).length = 32 := by
  rw [movedBytes, length_append, encodeName_length, length_map, length_range]

theorem movedBytes_of_lt (e : Entry) (name : Bytes) (hk : k < 11) :
    (movedBytes e name).getD k 0 = (encodeName name).getD k 0 := by
  rw [movedBytes, getD_append _ _ _ _ (by rwa [encodeName_length])]

theorem movedBytes_of_ge (e : Entry) (name : Bytes) (hk : 11 ≤ k) (hk' : k < 32) :
    (movedBytes e name).getD k 0 = e k := by
  rw [movedBytes, getD_append_right _ _ _ _ (by rwa [encodeName_length]), encodeName_length,
    getD_eq_getElem _ _ (by rw [length_map, length_range]; omega), getElem_map,
    getElem_range]
  congr 1
  omega

/-- Two stores, one behind the other. -/
theorem store_append (buf : Buf) (off : Nat) (xs ys : Bytes) :
    buf.store off (xs ++ ys) = (buf.store off xs).store (off + xs.length) ys := by
  funext k
  simp only [Buf.store, length_append]
  by_cases hys : off + xs.length ≤ k ∧ k < off + xs.length + ys.length
  · rw [if_pos hys, if_pos (by omega), getD_append_right _ _ _ _ (by omega)]
    congr 1
    omega
  · rw [if_neg hys]
    by_cases hxs : off ≤ k ∧ k < off + xs.length
    · rw [if_pos hxs, if_pos (by omega), getD_append _ _ _ _ (by omega)]
    · rw [if_neg hxs, if_neg (by omega)]

/-- The bytes of a slot, as the driver reads them. -/
theorem byteOn_slotByte (hi : p.2 < vol.slotsPerCluster) (hk : k < 32) :
    byteOn d (vol.slotByte p k) = entryAt (vol.clusterOn d p.1) p.2 k := by
  have hend := slot_end hi
  rw [clusterSize_eq] at hend
  rw [entryAt, DIR_SIZE, if_pos hk, clusterOn, if_pos (by omega),
    show (p.2 * 32 + k) / 512 = p.2 / 16 by omega,
    show (p.2 * 32 + k) % 512 = p.2 % 16 * 32 + k by omega]
  rfl

/-- What a lookup finds is a live slot, whatever it reads as a directory. -/
theorem findEntryInDir_hit (h : vol.findEntryInDir c target d = .ok (some p) d') :
    p.2 < vol.slotsPerCluster ∧ LiveEntry (entryAt (vol.clusterOn d p.1) p.2) := by
  have hsat : (vol.findEntryInDir c target d).Sat (fun r _ => ∀ p, r = some p →
        p.2 < vol.slotsPerCluster ∧ LiveEntry (entryAt (vol.clusterOn d p.1) p.2))
      fun _ _ => True := by
    refine sat_loopM (I := fun _ t => t = d) ?_ rfl
    rintro c t rfl
    rw [findEntryStep]
    split
    · apply sat_bind_ok readCluster_run
      cases hscan : scanSlots (vol.clusterOn t c) target 0 vol.slotsPerCluster with
      | found idx =>
        obtain ⟨hlt, hlive⟩ := scanSlots_found hscan
        rintro p ⟨⟩
        exact ⟨by omega, hlive⟩
      | stopped =>
        intro p hp
        cases hp
      | panic => trivial
      | exhausted =>
        apply sat_bind_ok readFatEntry_run
        rfl
    · intro p hp
      cases hp
  exact hsat.of_ok h p rfl

/-- What the search for a free slot finds, whatever it reads as a directory. -/
theorem findSlot_hit (h : findSlot vol c d = .ok (x, i, buf) d') :
    i < vol.slotsPerCluster ∧ buf = vol.clusterOn d x ∧ Vacant (entryAt (vol.clusterOn d x) i) := by
  have hsat : (findSlot vol c d).Sat
      (fun r _ => r.2.1 < vol.slotsPerCluster ∧ r.2.2 = vol.clusterOn d r.1 ∧
        Vacant (entryAt (vol.clusterOn d r.1) r.2.1)) fun _ _ => True := by
    refine sat_loopM (I := fun _ t => t = d) ?_ rfl
    rintro c t rfl
    rw [findSlotStep]
    apply sat_bind_ok readCluster_run
    cases hfree : freeSlot (vol.clusterOn t c) 0 vol.slotsPerCluster with
    | some idx =>
      obtain ⟨k, rfl, hlt, hvacant, -⟩ := freeSlot_found hfree
      rw [Nat.zero_add] at hvacant ⊢
      exact ⟨hlt, rfl, hvacant⟩
    | none =>
      apply sat_bind_ok readFatEntry_run
      split
      · trivial
      · rfl
  exact hsat.of_ok h

/-- `resolve_path` returns the last component of the path. -/
theorem resolveFrom_last (vol : FatVolume) (d : Disk) (c : Nat) {components : List Bytes}
    (hne : components ≠ []) : (resolveFrom vol c components d).Sat
      (fun r _ => components.getLast? = some r.2) fun _ _ => True := by
  induction components generalizing c with
  | nil => exact absurd rfl hne
  | cons component rest ih =>
    cases rest with
    | nil => rfl
    | cons next rest =>
      rw [resolveFrom, getLast?_cons_cons]
      · split
        · exact ih c (cons_ne_nil _ _)
        · refine (findEntryInDir_readOnly vol c component).sat_bind (fun r hrun => ?_)
            fun _ => trivial
          cases r with
          | none => trivial
          | some p => exact sat_bind_ok readEntryData_run (ih _ (cons_ne_nil _ _))
      · simp

theorem resolvePath_last (h : resolvePath vol path d = .ok (c, name) d') :
    (pathComponents path).getLast? = some name := by
  rw [resolvePath] at h
  split at h
  next hempty =>
    rw [pathComponents, hempty]
    obtain ⟨hpair, -⟩ := Outcome.ok.inj h
    rw [← (Prod.mk.inj hpair).2]
    rfl
  next =>
    have hne : pathComponents path ≠ [] := by
      rw [pathComponents]
      exact splitOn_ne_nil _ _
    exact (resolveFrom_last vol d _ hne).of_ok h

/-- The device that `moveEntry` leaves, for any numbers of clusters. -/
theorem moveEntry_run {parent : Nat} (hspc : vol.sectorsPerCluster ≤ 2 ^ 32)
    (hp : p.2 < vol.slotsPerCluster) (hslot : findSlot vol parent d = .ok (q.1, q.2, buf) d) :
    moveEntry vol p.1 p.2 parent (entryAt (vol.clusterOn d p.1) p.2) name d =
      .ok () (vol.movedOn d p q name) := by
  obtain ⟨hq, rfl, -⟩ := findSlot_hit hslot
  have hwrite : vol.writeCluster q.1 ((vol.clusterOn d q.1).store (q.2 * DIR_SIZE + 0)
      (movedBytes (entryAt (vol.clusterOn d p.1) p.2) name)) d =
      .ok () (vol.setSlotOn d q 0 (movedBytes (entryAt (vol.clusterOn d p.1) p.2) name)) :=
    writeCluster_slot hspc hq (by rw [movedBytes_length])
  rw [Nat.add_zero, movedBytes, store_append, encodeName_length] at hwrite
  rw [moveEntry, Op.bind_ok hslot]
  refine (Op.bind_ok hwrite).trans ((Op.bind_ok readCluster_run).trans ?_)
  exact writeCluster_deleted hspc hp

/-- **What `f_rename` does to the device**: nothing when it fails, and else it writes the slot found
for the new path and marks the one found for the old path. -/
theorem fRename_sat_bytes (vol : FatVolume) (d : Disk) (old new : Bytes)
    (hspc : vol.sectorsPerCluster ≤ 2 ^ 32) : (fRename (some vol) old new d).Sat
      (fun _ d' => ∃ p q name, FindsSource vol d old p ∧ FindsTarget vol d new q name ∧
        d' = vol.movedOn d p q name) fun _ d' => d' = d := by
  rw [fRename, withVol]
  refine (resolvePath_readOnly vol old).sat_bind ?_ fun _ => rfl
  rintro ⟨c, oldName⟩ hold
  simp only [withEntry]
  refine (findEntryInDir_readOnly vol c oldName).sat_bind ?_ fun _ => rfl
  rintro r hfind
  cases r with
  | none => rfl
  | some p =>
    simp only [renameAt]
    apply sat_bind_ok readEntryData_run
    refine (resolvePath_readOnly vol new).sat_bind ?_ fun _ => rfl
    rintro ⟨c', name⟩ hnew
    simp only
    split
    · rfl
    refine (findEntryInDir_readOnly vol c' name).sat_bind ?_ fun _ => rfl
    rintro r' -
    cases r' with
    | some _ => rfl
    | none =>
      -- the search for a slot is the last step that can fail
      cases hslot : findSlot vol c' d with
      | ok r d₁ =>
        obtain rfl := (findSlot_readOnly vol c').of_ok hslot
        exact sat_of_ok (moveEntry_run hspc (findEntryInDir_hit hfind).1 (q := (r.1, r.2.1)) hslot)
          ⟨p, (r.1, r.2.1), name, ⟨c, oldName, hold, hfind⟩, ⟨c', _, hnew, hslot⟩, rfl⟩
      | err e d₁ =>
        obtain rfl := (findSlot_readOnly vol c').of_err hslot
        simp only [moveEntry, Op.bind_err hslot]
        rfl
      | fault w =>
        simp only [moveEntry]
        exact sat_bind (by rw [hslot]; trivial)

/-- The device after the move, byte by byte. The slots do not overlap, since one is live and the
other is not; they may share a sector. -/
theorem movedOn_renamed (hp : p.2 < vol.slotsPerCluster) (hq : q.2 < vol.slotsPerCluster)
    (hlive : LiveEntry (entryAt (vol.clusterOn d p.1) p.2))
    (hvacant : Vacant (entryAt (vol.clusterOn d q.1) q.2)) :
    RenamedBytes vol d p q name (vol.movedOn d p q name) := by
  set bytes := movedBytes (entryAt (vol.clusterOn d p.1) p.2) name with hbytes
  have hlen : bytes.length = 32 := movedBytes_length _ _
  have hfree : byteOn d (vol.slotByte q 0) = 0 ∨ byteOn d (vol.slotByte q 0) = 0xE5 := by
    rw [byteOn_slotByte hq (by decide)]
    exact hvacant
  have hapart : ∀ k < 32, vol.slotByte q k ≠ vol.slotByte p 0 := by
    intro k hk heq
    rw [(slotByte_inj hk (by decide) heq).1, byteOn_slotByte hp (by decide)] at hfree
    exact hfree.elim hlive.2.1 hlive.2.2
  -- the mark leaves the bytes of the target as they were written
  have htarget : ∀ k < 32, byteOn (vol.movedOn d p q name) (vol.slotByte q k) = bytes.getD k 0 := by
    intro k hk
    rw [movedOn, setSlotOn_frame vol _ p 0 [0xE5] _ (slotByte_lt hk), ← hbytes]
    · have hstored : byteOn (vol.setSlotOn d q 0 bytes) (vol.slotByte q (0 + k)) = bytes.getD k 0 :=
        byteOn_setSlotOn (by omega) (by omega)
      rwa [Nat.zero_add] at hstored
    · rintro ⟨j, hj, heq⟩
      obtain rfl : j = 0 := Nat.lt_one_iff.mp hj
      exact hapart k hk heq
  refine ⟨hfree, byteOn_setSlotOn (j := 0) (by decide) (by decide), ?_, ?_, ?_⟩
  · intro k hk
    rw [htarget k (by omega), hbytes, movedBytes_of_lt _ _ hk]
  · intro k hk hk'
    rw [htarget k hk', hbytes, movedBytes_of_ge _ _ hk hk', byteOn_slotByte hp hk']
  · intro a ha hw
    refine (setSlotOn_frame vol d q 0 bytes).trans (setSlotOn_frame vol _ p 0 [0xE5]) a ha ?_
    rintro (⟨j, hj, rfl⟩ | ⟨j, hj, rfl⟩)
    · exact hw (.inr ⟨0 + j, by omega, rfl⟩)
    · obtain rfl : j = 0 := Nat.lt_one_iff.mp hj
      exact hw (.inl rfl)

/-- Only the places of the slots matter. -/
theorem RenamedBytes.congr (h : RenamedBytes vol d p q name d')
    (hp : vol.slotByte p 0 = vol.slotByte p' 0) (hq : vol.slotByte q 0 = vol.slotByte q' 0) :
    RenamedBytes vol d p' q' name d' := by
  have hp' := slotByte_congr hp
  have hq' := slotByte_congr hq
  obtain ⟨hvacant, hsource, hname, hrest, hframe⟩ := h
  simp only [hp', hq'] at hvacant hsource hname hrest hframe
  exact ⟨hvacant, hsource, hname, hrest, hframe⟩

/-- The bytes determine the places: the old slot has the byte that was live and became 0xE5, the new
slot the free one that did not stay free. -/
theorem RenamedBytes.places (h : RenamedBytes vol d p q name d')
    (h' : RenamedBytes vol d p' q' name d') (hlive : byteOn d (vol.slotByte p 0) ≠ 0xE5)
    (hname : (encodeName name).getD 0 0 ≠ 0 ∧ (encodeName name).getD 0 0 ≠ 0xE5) :
    vol.slotByte p 0 = vol.slotByte p' 0 ∧ vol.slotByte q 0 = vol.slotByte q' 0 := by
  have hfirst : byteOn d' (vol.slotByte q 0) ≠ 0xE5 := by
    rw [h.name 0 (by decide)]
    exact hname.2
  have hfirst' : byteOn d' (vol.slotByte q' 0) ≠ 0xE5 := by
    rw [h'.name 0 (by decide)]
    exact hname.2
  constructor
  · by_contra hne
    refine hlive ((h'.frame _ (slotByte_lt (by decide)) ?_).symm.trans h.source)
    rintro (heq | ⟨k, hk, heq⟩)
    · exact hne heq
    · rw [(slotByte_inj (by decide) hk heq).1.symm] at hfirst'
      exact hfirst' h.source
  · by_contra hne
    have hsame : byteOn d' (vol.slotByte q 0) = byteOn d (vol.slotByte q 0) := by
      refine h'.frame _ (slotByte_lt (by decide)) ?_
      rintro (heq | ⟨k, hk, heq⟩)
      · rw [heq] at hfirst
        exact hfirst h'.source
      · exact hne (slotByte_inj (by decide) hk heq).1
    rw [h.name 0 (by decide)] at hsame
    rcases h.vacant with h0 | h0
    · exact hname.1 (hsame.trans h0)
    · exact hname.2 (hsame.trans h0)

end Rename

/-! ## What the paths name -/

/-- Slot `p` has the entry of the directory from `c` on with the name. -/
def Denotes (vol : FatVolume) (img : Image) (c : Nat) (name : Bytes) (p : Slot) : Prop :=
  ∃ l, img.Chain vol c l ∧ namedSlot img name (vol.dirSlots l) = some p

/-- The components name directories, one in the other, from `c` to `c'`. -/
inductive NamesDirs (vol : FatVolume) (img : Image) : Nat → List Bytes → Nat → Prop
  | nil (c : Nat) : NamesDirs vol img c [] c
  | skip {c c' : Nat} {rest : List Bytes} (h : NamesDirs vol img c rest c') :
      NamesDirs vol img c ([] :: rest) c'
  | step {c c' : Nat} {p : Slot} {component : Bytes} {rest : List Bytes}
      (hne : component ≠ []) (hp : Denotes vol img c component p) (hd : Subdirectory (img.slot p))
      (h : NamesDirs vol img (startOf (img.slot p)) rest c') :
      NamesDirs vol img c (component :: rest) c'

section

variable (vol : FatVolume)

/-- The parent components of the path name the directory at `c`, and `name` is the last component.
-/
def NamesParent (img : Image) (path : Bytes) (c : Nat) (name : Bytes) : Prop :=
  ∃ parents, pathComponents path = parents ++ [name] ∧ NamesDirs vol img vol.rootCluster parents c

/-- The path names the entry in slot `p`. -/
def NamesEntry (img : Image) (path : Bytes) (p : Slot) : Prop :=
  ∃ c name, NamesParent vol img path c name ∧ name ≠ [] ∧ Denotes vol img c name p

/-- A slot of the directory from `c` on. -/
def SlotIn (img : Image) (c : Nat) (q : Slot) : Prop :=
  ∃ l, img.Chain vol c l ∧ q ∈ vol.dirSlots l

/-- `f_rename` moved the entry that the old path names to a free slot of the directory at `c`, and
did nothing else. -/
def MovedOnly (d : Disk) (old : Bytes) (c : Nat) (name : Bytes) (d' : Disk) : Prop :=
  ∃ p q, NamesEntry vol (view vol d) old p ∧ SlotIn vol (view vol d) c q ∧
    RenamedBytes vol d p q name d'

/-- The lookups arrive where the paths say: the slot found for the old path is that of the entry it
names, and the free slot found for the new path belongs to the directory at `c`. -/
def LookupsArrive (d : Disk) (old new : Bytes) (c : Nat) : Prop :=
  (∃ p p', NamesEntry vol (view vol d) old p ∧ FindsSource vol d old p' ∧
    vol.slotByte p' 0 = vol.slotByte p 0) ∧
  ∃ q q' name, SlotIn vol (view vol d) c q ∧ FindsTarget vol d new q' name ∧
    vol.slotByte q' 0 = vol.slotByte q 0

end

section Named

variable {vol : FatVolume} {old new name name' : Bytes}

theorem FindsSource.unique (h : FindsSource vol d old p) (h' : FindsSource vol d old p') :
    p = p' := by
  obtain ⟨c, oldName, hresolve, hfind⟩ := h
  obtain ⟨c', oldName', hresolve', hfind'⟩ := h'
  obtain ⟨hpair, -⟩ := Outcome.ok.inj (hresolve.symm.trans hresolve')
  obtain ⟨rfl, rfl⟩ := Prod.mk.inj hpair
  exact Option.some.inj (Outcome.ok.inj (hfind.symm.trans hfind')).1

theorem FindsTarget.unique (h : FindsTarget vol d new q name)
    (h' : FindsTarget vol d new q' name') : q = q' := by
  obtain ⟨c, buf, hresolve, hslot⟩ := h
  obtain ⟨c', buf', hresolve', hslot'⟩ := h'
  obtain ⟨hpair, -⟩ := Outcome.ok.inj (hresolve.symm.trans hresolve')
  obtain ⟨rfl, rfl⟩ := Prod.mk.inj hpair
  obtain ⟨htriple, -⟩ := Outcome.ok.inj (hslot.symm.trans hslot')
  obtain ⟨h1, hpair⟩ := Prod.mk.inj htriple
  exact Prod.ext h1 (Prod.mk.inj hpair).1

/-- The name stored is the last component of the new path. -/
theorem FindsTarget.name_eq (h : FindsTarget vol d new q name')
    (hnew : NamesParent vol (view vol d) new c name) : name' = name := by
  obtain ⟨c', buf, hresolve, -⟩ := h
  obtain ⟨parents, hsplit, -⟩ := hnew
  have hlast := resolvePath_last hresolve
  rw [hsplit, getLast?_concat] at hlast
  exact (Option.some.inj hlast).symm

/-- Such an 8.3 name does not look like a free slot. -/
theorem LiveName.first (h : LiveName name) :
    (encodeName name).getD 0 0 ≠ 0 ∧ (encodeName name).getD 0 0 ≠ 0xE5 := by
  obtain ⟨hstart, hend⟩ := h.1.storable.stored (e := fun _ => 0) fun _ _ => rfl
  have hdel := hstart.not_deleted h.1.ne_nil h.2
  rw [EndMarker] at hend
  rw [Buf.store, encodeName_length, if_pos (by decide)] at hend hdel
  exact ⟨hend, hdel⟩

/-- **When `f_rename` moves one slot and nothing else.** The parent components of the new path name
a directory, and the last one is an 8.3 name. A call that fails leaves every byte of the device as
it is. A call that succeeds moves the entry that the old path names to a free slot of that
directory, and changes no other byte, exactly when the lookups arrive at that entry and in that
directory. -/
theorem rename_moves_slot_iff (vol : FatVolume) (d : Disk) (old new : Bytes) (c : Nat)
    (name : Bytes) (hg : Geometry vol) (hnew : NamesParent vol (view vol d) new c name)
    (hname : LiveName name) : (∀ e d', fRename (some vol) old new d = .err e d' → d' = d) ∧
    ∀ d', fRename (some vol) old new d = .ok () d' →
      (MovedOnly vol d old c name d' ↔ LookupsArrive vol d old new c) := by
  have hsat := fRename_sat_bytes vol d old new (hg.spc_le.trans (by norm_num))
  refine ⟨fun e d' h => hsat.of_err h, ?_⟩
  intro d' h
  obtain ⟨p', q', name', hsource, htarget, rfl⟩ := hsat.of_ok h
  obtain rfl := htarget.name_eq hnew
  have hmoved : RenamedBytes vol d p' q' name' (vol.movedOn d p' q' name') := by
    obtain ⟨_, _, -, hfind⟩ := hsource
    obtain ⟨_, _, -, hslot⟩ := htarget
    obtain ⟨hp, hlive⟩ := findEntryInDir_hit hfind
    obtain ⟨hq, -, hvacant⟩ := findSlot_hit hslot
    exact movedOn_renamed hp hq hlive hvacant
  have hlive : byteOn d (vol.slotByte p' 0) ≠ 0xE5 := by
    obtain ⟨_, _, -, hfind⟩ := hsource
    obtain ⟨hp, hlive⟩ := findEntryInDir_hit hfind
    rw [byteOn_slotByte hp (by decide)]
    exact hlive.2.2
  constructor
  · rintro ⟨p, q, hold, hin, hbytes⟩
    obtain ⟨hp, hq⟩ := hmoved.places hbytes hlive hname.first
    exact ⟨⟨p, p', hold, hsource, hp⟩, q, q', name', hin, htarget, hq⟩
  · rintro ⟨⟨p, p₁, hold, hsource₁, hp⟩, q, q₁, name₁, hin, htarget₁, hq⟩
    obtain rfl := hsource.unique hsource₁
    obtain rfl := htarget.unique htarget₁
    exact ⟨p, q, hold, hin, hmoved.congr hp hq⟩

end Named

/-! ## On the sample volume -/

theorem sample_names_F : NamesEntry tinyVol sampleImage [0x2F, 0x46] (2, 3) :=
  ⟨2, [0x46], ⟨[], by decide, .nil 2⟩, by decide, [2], sample_chain (by decide), by decide +kernel⟩

/-- Renaming `/F` to `/X` uses the deleted slot of the root directory; both slots are in one
sector. -/
theorem rename_moves_slot_iff_sample : ∃ d',
    fRename (some tinyVol) [0x2F, 0x46] [0x2F, 0x58] sampleDisk = .ok () d' ∧
      MovedOnly tinyVol sampleDisk [0x2F, 0x46] 2 [0x58] d' := by
  obtain ⟨d', hrun⟩ : ∃ d', fRename (some tinyVol) [0x2F, 0x46] [0x2F, 0x58] sampleDisk =
      .ok () d' := by decide +kernel
  obtain ⟨⟨x, i, buf⟩, d₁, hfound, hx, hi⟩ : ∃ r d₁, findSlot tinyVol 2 sampleDisk = .ok r d₁ ∧
      r.1 = 2 ∧ r.2.1 = 0 := by decide +kernel
  subst hx hi
  obtain rfl := (findSlot_readOnly tinyVol 2).of_ok hfound
  have hnew : NamesParent tinyVol sampleImage [0x2F, 0x58] 2 [0x58] := ⟨[], by decide, .nil 2⟩
  have hsource : FindsSource tinyVol sampleDisk [0x2F, 0x46] (2, 3) :=
    ⟨2, [0x46], rfl, sample_find (by decide) (by decide +kernel)⟩
  have hin : SlotIn tinyVol sampleImage 2 (2, 0) := ⟨[2], sample_chain (by decide), by decide⟩
  refine ⟨d', hrun, ?_⟩
  exact ((rename_moves_slot_iff tinyVol sampleDisk [0x2F, 0x46] [0x2F, 0x58] 2 [0x58]
    tiny_geometry hnew liveName_X).2 d' hrun).mpr
    ⟨⟨(2, 3), (2, 3), sample_names_F, hsource, rfl⟩, (2, 0), (2, 0), [0x58], hin,
      ⟨2, buf, rfl, hfound⟩, rfl⟩

/-- The path `/A/X` names the directory `A`, in cluster 4, but the lookup of `A` returns the file
`AB`. Renaming `/F` to it writes the entry into the data of that file. -/
theorem rename_into_file :
    Geometry tinyVol ∧ Mirrored tinyVol sampleDisk ∧ WellFormed tinyVol sampleImage ∧
    NamesEntry tinyVol sampleImage [0x2F, 0x46] (2, 3) ∧
    NamesParent tinyVol sampleImage [0x2F, 0x41, 0x2F, 0x58] 4 [0x58] ∧ LiveName [0x58] ∧
    ∃ d', (fRename (some tinyVol) [0x2F, 0x46] [0x2F, 0x41, 0x2F, 0x58] : DevOp Disk Unit)
        sampleDisk = .ok () d' ∧
      clusterByte tinyVol sampleDisk 3 32 = 0 ∧ clusterByte tinyVol d' 3 32 = 0x58 ∧
      ¬ MovedOnly tinyVol sampleDisk [0x2F, 0x46] 4 [0x58] d' := by
  have hstart : startOf (sampleImage.slot (2, 2)) = 4 := by decide +kernel
  have hA : Denotes tinyVol sampleImage 2 [0x41] (2, 2) :=
    ⟨[2], sample_chain (by decide), by decide +kernel⟩
  have hnew : NamesParent tinyVol sampleImage [0x2F, 0x41, 0x2F, 0x58] 4 [0x58] :=
    ⟨[[0x41]], by decide, .step (by decide) hA (by decide +kernel) (hstart ▸ .nil _)⟩
  obtain ⟨d', hrun, hafter⟩ : ∃ d', fRename (some tinyVol) [0x2F, 0x46] [0x2F, 0x41, 0x2F, 0x58]
      sampleDisk = .ok () d' ∧ byteOn d' (3, 32) = 0x58 := by decide +kernel
  have hbefore : byteOn sampleDisk (3, 32) = 0 := by decide +kernel
  refine ⟨tiny_geometry, tiny_mirrored _, sample_wellFormed, sample_names_F, hnew, liveName_X,
    d', hrun, hbefore, hafter, ?_⟩
  rintro ⟨p, q, -, ⟨l, hl, hq⟩, hbytes⟩
  obtain rfl := hl.unique tiny_geometry.not_stop (sample_chain (by decide))
  obtain ⟨hq, hi⟩ := mem_dirSlots.mp hq
  have hi : q.2 < 16 := hi
  have hlba : tinyVol.clusterToLba 4 = 4 := by decide
  -- the byte that changed is neither the mark of the old slot nor in the directory
  have hsame : byteOn d' (3, 32) = byteOn sampleDisk (3, 32) := by
    refine hbytes.frame (3, 32) (by decide) ?_
    rintro (heq | ⟨k, -, heq⟩)
    · have hmark := hbytes.source
      rw [← heq, hafter] at hmark
      exact absurd hmark (by decide)
    · have hsector := congrArg Prod.fst heq
      simp only [slotByte, mem_singleton.mp hq, hlba] at hsector
      omega
  rw [hafter, hbefore] at hsame
  exact absurd hsame (by decide)

end PlanckOS.Fat32
