import Mathlib.Tactic

/-!
# A byte array with a cursor

What a file is for its user: some bytes and a position among them. `write` replaces the bytes at the
cursor and goes on behind the end, `peek` gives the bytes at the cursor, `seek` and `skip` move it.
The position never leaves the file, which the type records.

`write_getElem?` says what is where after a write, byte by byte.
-/

set_option autoImplicit false

namespace PlanckOS.Lib

open List

variable {content : List UInt8} {pos : Nat}

/-- Bytes and a position among them or at their end. -/
structure ByteFile where
  content : List UInt8
  pos : Nat
  pos_le : pos ≤ content.length
  deriving DecidableEq

namespace ByteFile

/-- The file without any bytes. -/
def empty : ByteFile := ⟨[], 0, le_rfl⟩

/-- The content with `bs` at position `pos`. -/
def splice (content : List UInt8) (pos : Nat) (bs : List UInt8) : List UInt8 :=
  content.take pos ++ bs ++ content.drop (pos + bs.length)

theorem splice_length (h : pos ≤ content.length)
    (bs : List UInt8) : (splice content pos bs).length = max content.length (pos + bs.length) := by
  rw [splice, length_append, length_append, length_take, length_drop]
  omega

theorem splice_getElem? (h : pos ≤ content.length)
    (bs : List UInt8) (k : Nat) : (splice content pos bs)[k]? =
      if pos ≤ k ∧ k < pos + bs.length then bs[k - pos]? else content[k]? := by
  have htake : (content.take pos).length = pos := length_take_of_le h
  rw [splice]
  by_cases hin : k < pos + bs.length
  · rw [getElem?_append_left (by rwa [length_append, htake])]
    by_cases hlow : pos ≤ k
    · rw [if_pos ⟨hlow, hin⟩, getElem?_append_right (by rwa [htake]), htake]
    · rw [if_neg fun h => hlow h.1, getElem?_append_left (by rw [htake]; omega),
        getElem?_take_of_lt (by omega)]
  · rw [if_neg fun h => hin h.2,
      getElem?_append_right (by rw [length_append, htake]; omega), getElem?_drop,
      length_append, htake]
    congr 1
    omega

/-- Write at the cursor. -/
def write (bf : ByteFile) (bs : List UInt8) : ByteFile where
  content := splice bf.content bf.pos bs
  pos := bf.pos + bs.length
  pos_le := by
    rw [splice_length bf.pos_le]
    exact le_max_right _ _

/-- The bytes at the cursor, at most `n`. -/
def peek (bf : ByteFile) (n : Nat) : List UInt8 := (bf.content.drop bf.pos).take n

/-- Move the cursor; it stops at the end. -/
def seek (bf : ByteFile) (offset : Nat) : ByteFile where
  content := bf.content
  pos := min offset bf.content.length
  pos_le := min_le_right _ _

/-- The file behind a read of at most `n` bytes. -/
def skip (bf : ByteFile) (n : Nat) : ByteFile := bf.seek (bf.pos + n)

variable (bf : ByteFile)

theorem eq_of_parts {a b : ByteFile} (hc : a.content = b.content) (hp : a.pos = b.pos) : a = b := by
  cases a
  cases b
  subst hc hp
  rfl

theorem write_length (bs : List UInt8) :
    (bf.write bs).content.length = max bf.content.length (bf.pos + bs.length) :=
  splice_length bf.pos_le bs

/-- What is where after a write. -/
theorem write_getElem? (bs : List UInt8) (k : Nat) : (bf.write bs).content[k]? =
    if bf.pos ≤ k ∧ k < bf.pos + bs.length then bs[k - bf.pos]? else bf.content[k]? :=
  splice_getElem? bf.pos_le bs k

theorem seek_of_le {offset : Nat} (h : offset ≤ bf.content.length) :
    (bf.seek offset).pos = offset := min_eq_left h

theorem skip_min (n : Nat) : bf.skip (min n (bf.content.length - bf.pos)) = bf.skip n := by
  have := bf.pos_le
  apply eq_of_parts
  · rfl
  · rw [skip, skip, seek, seek]
    simp only
    omega

end ByteFile

end PlanckOS.Lib
