import PlanckOS.Lib.Word

/-!
# Byte-addressed memory with 64-bit words

A memory gives the byte at every address. `readWord` and `writeWord` move the eight bytes of a
little-endian word. The lemmas are the usual ones: a word reads back as written, a write leaves
the words it does not overlap alone, and a word depends on its own eight bytes only.
-/

set_option autoImplicit false

namespace PlanckOS.Lib.ByteMemory

open Lib.Word

/-- A memory: the byte stored at each address. -/
abbrev Mem := Nat → UInt8

/-- The 64-bit word stored at `a`. -/
def readWord (m : Mem) (a : Nat) : Nat := leVal (fun i => m (a + i)) 8

/-- Store the 64-bit word `w` at `a`. -/
def writeWord (m : Mem) (a w : Nat) : Mem :=
  fun x => if a ≤ x ∧ x < a + 8 then leByte w (x - a) else m x

/-- Store one byte. -/
def writeByte (m : Mem) (a : Nat) (b : UInt8) : Mem := fun x => if x = a then b else m x

theorem readWord_lt (m : Mem) (a : Nat) : readWord m a < 2 ^ 64 := by
  have h := leVal_lt (fun i => m (a + i)) 8
  norm_num at h ⊢
  exact h

theorem readWord_congr {m m' : Mem} {a : Nat} (h : ∀ x, a ≤ x → x < a + 8 → m x = m' x) :
    readWord m a = readWord m' a :=
  leVal_congr fun i hi => h (a + i) (by omega) (by omega)

theorem readWord_writeWord_same (m : Mem) (a : Nat) {w : Nat} (hw : w < 2 ^ 64) :
    readWord (writeWord m a w) a = w := by
  have hbytes : leVal (fun i => writeWord m a w (a + i)) 8 = leVal (leByte w) 8 := by
    refine leVal_congr fun i hi => ?_
    have hin : a ≤ a + i ∧ a + i < a + 8 := ⟨by omega, by omega⟩
    rw [writeWord, if_pos hin, Nat.add_sub_cancel_left]
  rw [readWord, hbytes, leVal_leByte]
  exact Nat.mod_eq_of_lt (by norm_num at hw ⊢; exact hw)

theorem writeWord_apply_of_outside (m : Mem) {a x : Nat} (w : Nat) (h : x < a ∨ a + 8 ≤ x) :
    writeWord m a w x = m x := by
  rw [writeWord, if_neg (by omega)]

theorem writeByte_apply_of_ne (m : Mem) {a x : Nat} (b : UInt8) (h : x ≠ a) :
    writeByte m a b x = m x := if_neg h

end PlanckOS.Lib.ByteMemory
