import PlanckOS.Fat32.Browse

/-!
# What the applets run on

An applet runs on the device and on the display (`Terminal`). An error of a file operation is a
value for it (`attempt`), and what it prints is kept as the pieces that it passes to the display.
The applets that print names ask first whether the bytes are UTF-8 (`validUtf8`); `nameEnd` and
`isDotName` are their tests on the names that `f_readdir` returns.
-/

set_option autoImplicit false

namespace PlanckOS.Applets

open Lib.Fallible Fat32 List

/-- A piece of what is written to the display. -/
inductive Piece where
  | text (s : String)
  | path (bytes : Bytes)
  | newline
  deriving DecidableEq, Repr

/-- `str::as_bytes`. -/
def textBytes (s : String) : Bytes := s.toUTF8.data.toList

/-- The bytes that the display is given for a piece. -/
def Piece.bytes : Piece → Bytes
  | .text s => textBytes s
  | .path bytes => bytes
  | .newline => [0x0A]

/-- The device and what was written to the display. -/
structure Terminal (δ : Type) where
  dev : δ
  display : List Piece

/-- A computation of an applet. It returns no errors. -/
abbrev TermOp (δ : Type) := Op (Terminal δ) FError

variable {δ α : Type} [BlockDevice δ] {x : DevOp δ α} {t : Terminal δ} {d : δ}

/-- Call a file operation and look at its result. -/
def attempt {α : Type} (x : DevOp δ α) : TermOp δ (Except FError α) := fun s =>
  match x s.dev with
  | .ok a d => .ok (.ok a) { s with dev := d }
  | .err e d => .ok (.error e) { s with dev := d }
  | .fault w => .fault w

/-- Call `f_readdir`; its result and the handle. -/
def attemptReaddir (vol : Option FatVolume) (dir : Dir) :
    TermOp δ (Except FError (Option Bytes) × Dir) := fun s =>
  match fReaddir vol ⟨s.dev, dir⟩ with
  | .ok r t => .ok (.ok r, t.dir) { s with dev := t.dev }
  | .err e t => .ok (.error e, t.dir) { s with dev := t.dev }
  | .fault w => .fault w

omit [BlockDevice δ] in
theorem attempt_ok {a : α} (h : x t.dev = .ok a d) :
    attempt x t = .ok (.ok a) { t with dev := d } := by
  rw [attempt, h]

omit [BlockDevice δ] in
theorem attempt_err {e : FError} (h : x t.dev = .err e d) :
    attempt x t = .ok (.error e) { t with dev := d } := by
  rw [attempt, h]

theorem attemptReaddir_ok {dir dir' : Dir} {r : Option Bytes} {vol : Option FatVolume}
    (h : fReaddir vol ⟨t.dev, dir⟩ = .ok r ⟨d, dir'⟩) :
    attemptReaddir vol dir t = .ok (.ok r, dir') { t with dev := d } := by
  rw [attemptReaddir, h]

def write (pieces : List Piece) : TermOp δ Unit :=
  Op.modify fun s => { s with display := s.display ++ pieces }

/-- `core::str::from_utf8(bytes).is_ok()`. -/
def validUtf8 (bytes : Bytes) : Bool := (ByteArray.mk bytes.toArray).validateUTF8

/-- The name that `f_readdir` returned, without its padding: `end` bytes. -/
def nameEnd (name : Bytes) : Nat :=
  if validUtf8 name then (name.findIdx? (· == 0)).getD name.length else 1

theorem byteArray_append (xs ys : Bytes) :
    ByteArray.mk (xs ++ ys).toArray = ByteArray.mk xs.toArray ++ ByteArray.mk ys.toArray := by
  apply ByteArray.ext
  simp

theorem validUtf8_append {xs ys : Bytes} (hx : validUtf8 xs = true) (hy : validUtf8 ys = true) :
    validUtf8 (xs ++ ys) = true := by
  rw [validUtf8, ByteArray.validateUTF8_eq_true_iff] at hx hy ⊢
  rw [byteArray_append]
  exact hx.append hy

/-- A valid front can be taken off. -/
theorem validUtf8_append_iff {xs ys : Bytes} (hx : validUtf8 xs = true) :
    validUtf8 (xs ++ ys) = true ↔ validUtf8 ys = true := by
  refine ⟨fun hxy => ?_, validUtf8_append hx⟩
  rw [validUtf8, ByteArray.validateUTF8_eq_true_iff] at hx hxy ⊢
  obtain ⟨cs, hcs⟩ := hx
  obtain ⟨ds, hds⟩ := hxy
  rw [byteArray_append, hcs] at hds
  -- The characters of the front are the first ones of the whole.
  obtain ⟨es, rfl⟩ := isPrefix_of_utf8Encode_append_eq_utf8Encode _ hds
  rw [utf8Encode_append, ByteArray.append_right_inj] at hds
  exact ⟨es, hds⟩

theorem validUtf8_ascii {bytes : Bytes} (h : ∀ b ∈ bytes, b < 0x80) : validUtf8 bytes = true := by
  have hbyte : ∀ n < 128, validUtf8 [UInt8.ofNat n] = true := by decide +kernel
  induction bytes with
  | nil => decide +kernel
  | cons b bytes ih =>
    rw [forall_mem_cons] at h
    have hb := hbyte b.toNat (UInt8.lt_iff_toNat_lt.mp h.1)
    rw [UInt8.ofNat_toNat] at hb
    exact validUtf8_append hb (ih h.2)

/-- The length of a name is that of its bytes in front of the padding. -/
theorem nameEnd_body {body : Bytes} {k : Nat} (h : ∀ b ∈ body, b ≠ 0 ∧ b < 0x80) :
    nameEnd (body ++ replicate (k + 1) 0) = body.length := by
  have hvalid : validUtf8 (body ++ replicate (k + 1) 0) = true := by
    apply validUtf8_ascii
    intro b hb
    rcases mem_append.mp hb with hb | hb
    · exact (h b hb).2
    · rw [eq_of_mem_replicate hb]
      decide
  have hnone : body.findIdx? (· == 0) = none := by
    rw [findIdx?_eq_none_iff]
    intro b hb
    simpa using (h b hb).1
  rw [nameEnd, if_pos hvalid, findIdx?_append, hnone, replicate_succ, findIdx?_cons]
  simp

/-- `.` and `..`. -/
def isDotName (name : Bytes) : Bool :=
  name.getD 0 0 == 0x2E && (name.getD 1 0 == 0 || (name.getD 1 0 == 0x2E && name.getD 2 0 == 0))

end PlanckOS.Applets
