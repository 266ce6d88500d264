import PlanckOS.Fat32.Seat
import PlanckOS.Lib.ByteFile

/-!
# What an open file holds

`Stores vol img f bf l` says that the handle `f`, whose chain is `l`, stands for the byte array with
a cursor `bf`: byte `o` of the `q`-th cluster of the chain is byte `q * cluster_size + o` of the
array, and the cursor of the handle is at the array's position. The chain always has room behind the
last byte, because `f_write` takes a new cluster as soon as the last one is full.

Such a handle is seated (`Stores.seated`), and a seated handle with the right bytes is one
(`Seated.stores`). `f_read`, `f_write` and `f_lseek` then do to the handle what `peek` and `skip`,
`write` and `seek` do to the array (`fRead_stores`, `fWrite_stores`, `fLseek_stores`).
-/

set_option autoImplicit false

namespace PlanckOS.Fat32

open Lib Lib.Fallible List
open FatVolume

/-- The handle `f` with the chain `l` stands for the byte array `bf`. -/
structure Stores (vol : FatVolume) (img : Image) (f : File) (bf : ByteFile) (l : List Nat) :
    Prop where
  readable : f.flags &&& FA_READ ≠ 0
  writable : f.flags &&& FA_WRITE ≠ 0
  chain : img.Chain vol f.startCluster l
  size : f.size = bf.content.length
  small : bf.content.length < 2 ^ 32
  position : f.position = bf.pos
  low : (l.length - 1) * vol.clusterSize ≤ bf.content.length
  high : bf.content.length < l.length * vol.clusterSize
  cursor : ∃ q, Cursor vol l f bf.pos q
  data : ∀ q c o, l[q]? = some c → o < vol.clusterSize →
    q * vol.clusterSize + o < bf.content.length →
    bf.content[q * vol.clusterSize + o]? = some (img.data c o)

section Calls

variable {vol : FatVolume} {img : Image} {s : OpenFile Disk} {f f' : File} {bf : ByteFile}
  {l : List Nat}

section

variable (h : Stores vol img f bf l)
include h

theorem Stores.seated : Seated vol img f l where
  chain := h.chain
  covers := h.size ▸ h.high.le
  inside := by
    rw [h.position, h.size]
    exact bf.pos_le
  small := h.size ▸ h.small
  cursor := .inl (h.position ▸ h.cursor)

/-- The bytes of the array are those of the file. -/
theorem Stores.getElem?_eq {i : Nat} (hi : i < bf.content.length) :
    bf.content[i]? = some (fileByte vol img l i) := by
  have hhigh := h.high
  have hcs : 0 < vol.clusterSize := Nat.pos_of_ne_zero fun h0 => by rw [h0] at hhigh; omega
  have hidx : i / vol.clusterSize < l.length :=
    Nat.div_lt_of_lt_mul (by rw [Nat.mul_comm]; omega)
  have hsplit := Nat.div_add_mod' i vol.clusterSize
  have hdata := h.data _ _ _ (getElem?_eq_getElem hidx) (Nat.mod_lt i hcs) (by rwa [hsplit])
  rwa [hsplit, ← getD_eq_getElem _ 0] at hdata

omit h in
/-- A seated handle in front of the end of its chain stands for the bytes of the file. -/
theorem Seated.stores (h : Seated vol img f l) (hread : f.flags &&& FA_READ ≠ 0)
    (hwrite : f.flags &&& FA_WRITE ≠ 0) (hsize : f.size = bf.content.length)
    (hposition : f.position = bf.pos) (hlow : (l.length - 1) * vol.clusterSize ≤ f.size)
    (hhigh : f.size < l.length * vol.clusterSize)
    (hbytes : ∀ i < bf.content.length, bf.content[i]? = some (fileByte vol img l i)) :
    Stores vol img f bf l where
  readable := hread
  writable := hwrite
  chain := h.chain
  size := hsize
  small := hsize ▸ h.small
  position := hposition
  low := hsize ▸ hlow
  high := hsize ▸ hhigh
  cursor := hposition ▸ h.cursor_of_lt (h.inside.trans_lt hhigh)
  data q c o hq ho hlt := by
    rw [hbytes _ hlt, fileByte_block ho, getD_eq_getElem?_getD, hq, Option.getD_some]

/-- The handle at another position. -/
theorem Stores.moved (h' : Seated vol img f' l) (hsame : SameText f f') {pos : Nat}
    (hpos : pos ≤ bf.content.length) (hposition : f'.position = pos) :
    Stores vol img f' (bf.seek pos) l := by
  have hsize : f'.size = bf.content.length := hsame.size.trans h.size
  refine h'.stores (hsame.flags ▸ h.readable) (hsame.flags ▸ h.writable) hsize
    (hposition.trans (bf.seek_of_le hpos).symm) ?_ ?_ fun i hi => h.getElem?_eq hi
  · rw [hsize]
    exact h.low
  · rw [hsize]
    exact h.high

/-- The bytes from the position on. -/
theorem Stores.peek_eq (len : Nat) :
    fileBytes vol img l bf.pos (min len (bf.content.length - bf.pos)) = bf.peek len := by
  apply ext_getElem?
  intro i
  rw [fileBytes, getElem?_map, ByteFile.peek, getElem?_take]
  by_cases hi : i < min len (bf.content.length - bf.pos)
  · rw [getElem?_range hi, Option.map_some, if_pos (by omega), getElem?_drop,
      h.getElem?_eq (by omega)]
  · rw [getElem?_eq_none (by rw [length_range]; omega), Option.map_none]
    split
    · rw [getElem?_drop, getElem?_eq_none (by omega)]
    · rfl

end

/-- **`f_read` returns the bytes at the cursor and moves it behind them.** -/
theorem fRead_stores (hg : Geometry vol) (hv : view vol s.dev = img)
    (h : Stores vol img s.file bf l) (len : Nat) : (fRead (some vol) len s).Sat
      (fun bytes s' => bytes = bf.peek len ∧ s'.dev = s.dev ∧
        Stores vol img s'.file (bf.skip len) l) fun _ _ => True := by
  have hpos := bf.pos_le
  refine (fRead_seated hg hv h.seated h.readable len).sat.mono ?_ fun _ _ h => h.elim
  rintro bytes s' ⟨hdev, h', hsame, hposition, rfl⟩
  rw [h.size, h.position] at hposition ⊢
  rw [h.peek_eq, ← bf.skip_min]
  exact ⟨rfl, hdev, h.moved h' hsame (by omega) hposition⟩

/-- **`f_write` writes the bytes at the cursor and moves it behind them.** -/
theorem fWrite_stores (hg : Geometry vol) (hs : Shows vol s.dev img)
    (h : Stores vol img s.file bf l) {buf : Bytes} (hsmall : bf.pos + buf.length < 2 ^ 32) :
    (fWrite (some vol) buf s).Sat
      (fun n s' => n = buf.length ∧ ∃ img' l', Shows vol s'.dev img' ∧
        Stores vol img' s'.file (bf.write buf) l' ∧ Confined img img' l l') fun _ _ => True := by
  have hpos := bf.pos_le
  have hhigh := h.high
  have hlow := h.low
  refine (fWrite_seated hg hs h.seated h.writable (by rw [h.position]; omega)
    (by rwa [h.position])).sat.mono ?_ fun _ _ _ => trivial
  rintro n s' ⟨rfl, img', l', hs', hadv, h', hroom⟩
  obtain ⟨hposition, hsize⟩ := hadv.numbers h.seated.inside (by rwa [h.position])
  have hwrote := hadv.wrote
  have hflags := hadv.flags
  rw [h.position] at hposition hsize hwrote
  rw [h.size] at hsize
  have hlen := bf.write_length buf
  have hgrow := Nat.mul_le_mul_right vol.clusterSize hwrote.keeps.length_le
  refine ⟨rfl, img', l', hs', h'.stores (hflags ▸ h.readable) (hflags ▸ h.writable)
    (hsize.trans hlen.symm) hposition ?_ (by omega) ?_, hwrote.confined⟩
  · rcases hwrote.tight with rfl | ht <;> omega
  · intro i hi
    rw [bf.write_getElem?]
    by_cases hin : bf.pos ≤ i ∧ i < bf.pos + buf.length
    · rw [if_pos hin, hwrote.new i hin.1 hin.2, getD_eq_getElem _ _ (by omega), getElem?_eq_getElem]
    · rw [if_neg hin, hwrote.old i (by omega) (by omega), h.getElem?_eq (by omega)]

/-- **`f_lseek` inside of the file moves the cursor.** -/
theorem fLseek_stores (hg : Geometry vol) (hv : view vol s.dev = img)
    (h : Stores vol img s.file bf l) {offset : Nat} (hoff : offset ≤ bf.content.length) :
    (fLseek (some vol) offset s).Sat
      (fun _ s' => s'.dev = s.dev ∧ Stores vol img s'.file (bf.seek offset) l)
      fun _ _ => True := by
  have hinside : offset ≤ s.file.size := h.size.symm ▸ hoff
  obtain ⟨s', hrun, hdev, h', hsame, hposition⟩ :=
    fLseek_seated hg hv h.seated hinside (.inr (hoff.trans_lt h.high))
  exact sat_of_ok hrun ⟨hdev, h.moved h' hsame hoff hposition⟩

end Calls

end PlanckOS.Fat32
