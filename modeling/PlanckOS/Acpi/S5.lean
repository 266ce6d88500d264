import PlanckOS.Acpi.Madt

/-!
# The search for the S5 sleep types in `src/hal/acpi.rs`

`parse_s5` looks through the bytes of the DSDT for a name and reads two numbers behind it. AML pads
names with underscores, so that the package is called `_S5_`; the search wants `_S5` and a zero
byte. It also takes the byte behind the package length for the first element, where AML has the
number of elements, and leaves out the last 20 bytes of the table, or none when there are fewer: the
bound of the loop then wraps around.

`parseS5_iff` says for which tables this makes no difference.
-/

set_option autoImplicit false

namespace PlanckOS.Acpi

open Lib.Word List

/-! ## Model -/

/-- The statics `S5_SLP_TYPa` and `S5_SLP_TYPb`. -/
structure SleepTypes where
  a : UInt8
  b : UInt8
  deriving DecidableEq, Repr

/-- A NameOp and the name `_S5` with the last byte given. -/
abbrev NameAt (data : Bytes) (i : Nat) (last : UInt8) : Prop :=
  data[i]? = some 0x08 ∧ data[i + 1]? = some 0x5F ∧ data[i + 2]? = some 0x53 ∧
    data[i + 3]? = some 0x35 ∧ data[i + 4]? = some last

/-- What the search stops at. -/
def Found (data : Bytes) (i : Nat) : Prop := i + 5 < data.length ∧ NameAt data i 0x00
  deriving Decidable

/-- The second element, if there is one at `offset`. -/
def readSecond (data : Bytes) (offset : Nat) (s : SleepTypes) : SleepTypes :=
  if data[offset]? = some 0x0A then
    (data[offset + 1]?).elim s fun v => { s with b := v }
  else s

/-- Both elements. -/
def readElements (data : Bytes) (offset : Nat) (s : SleepTypes) : SleepTypes :=
  if data[offset]? = some 0x0A then
    match data[offset + 1]? with
    | some v => readSecond data (offset + 2) { s with a := v }
    | none => readSecond data (offset + 1) s
  else readSecond data offset s

/-- What follows the name at `i`. -/
def readPackage (data : Bytes) (i : Nat) (s : SleepTypes) : SleepTypes :=
  if data[i + 5]? = some 0x12 then
    let pkgStart := i + 6
    if pkgStart + 2 < data.length then
      let pkgLenByte := (data.getD pkgStart 0).toNat
      if pkgStart + 1 + pkgLenByte ≤ data.length then readElements data (pkgStart + 1) s else s
    else s
  else s

/-- The loop, from index `i` on with `n` rounds left. `none` is an index past the end. -/
def searchS5 (data : Bytes) (s : SleepTypes) : Nat → Nat → Option SleepTypes
  | _, 0 => some s
  | i, n + 1 => do
      let b ← data[i]?
      if b = 0x08 ∧ Found data i then pure (readPackage data i s) else searchS5 data s (i + 1) n

def parseS5 (mem : Bytes) (s : SleepTypes) : Option SleepTypes := do
  let data ← tableData mem
  searchS5 data s 0 ((data.length + (2 ^ 64 - 20)) % 2 ^ 64)

/-! ## The search -/

section Search

variable {data : Bytes} {s : SleepTypes} {i n q : Nat}

/-- A round that does not stop. -/
theorem searchS5_next (hi : i < data.length) (h : ¬ Found data i) :
    searchS5 data s i (n + 1) = searchS5 data s (i + 1) n := by
  rw [searchS5, getElem?_eq_getElem hi]
  exact if_neg fun hfound => h hfound.2

theorem searchS5_hit (hfirst : ∀ j, i ≤ j → j < q → ¬ Found data j) (hle : i ≤ q) (hlt : q < i + n)
    (hq : Found data q) : searchS5 data s i n = some (readPackage data q s) := by
  have hin := hq.1
  induction n generalizing i with
  | zero => omega
  | succ n ih =>
    rcases Nat.eq_or_lt_of_le hle with rfl | hlt'
    · rw [searchS5, hq.2.1]
      exact if_pos ⟨rfl, hq⟩
    · rw [searchS5_next (by omega) (hfirst i le_rfl hlt')]
      exact ih (fun j hj hj' => hfirst j (by omega) hj') hlt' (by omega)

theorem searchS5_miss (hnone : ∀ j, i ≤ j → j < i + n → ¬ Found data j)
    (hin : i + n ≤ data.length) : searchS5 data s i n = some s := by
  induction n generalizing i with
  | zero => rfl
  | succ n ih =>
    rw [searchS5_next (by omega) (hnone i le_rfl (by omega))]
    exact ih (fun j hj hj' => hnone j (by omega) (by omega)) (by omega)

/-- A loop bound past the end of the table. -/
theorem searchS5_past (hnone : ∀ j, ¬ Found data j) (hle : i ≤ data.length)
    (hpast : data.length < i + n) : searchS5 data s i n = none := by
  induction n generalizing i with
  | zero => omega
  | succ n ih =>
    rcases Nat.eq_or_lt_of_le hle with heq | hlt
    · rw [searchS5, getElem?_eq_none (by omega)]
      rfl
    · rw [searchS5_next hlt (hnone i)]
      exact ih hlt (by omega)

/-! ## The package -/

/-- What the search takes for a package with a first element. -/
def Accepted (data : Bytes) (q : Nat) : Prop :=
  data[q + 5]? = some 0x12 ∧ q + 7 + (data.getD (q + 6) 0).toNat ≤ data.length ∧
    data[q + 7]? = some 0x0A

/-- The bytes behind a name at `q` make the sleep types `a` and `b`, or leave them. -/
def ReadAs (data : Bytes) (q : Nat) (s : SleepTypes) (a b : UInt8) : Prop :=
  Accepted data q ∧ data[q + 8]? = some a ∧
      (data[q + 9]? = some 0x0A ∧ data[q + 10]? = some b ∨ data[q + 9]? ≠ some 0x0A ∧ s.b = b) ∨
    ¬ Accepted data q ∧ s = ⟨a, b⟩

theorem readPackage_eq_iff (hq : q + 20 < data.length) {a b : UInt8} :
    readPackage data q s = ⟨a, b⟩ ↔ ReadAs data q s a b := by
  have h8 : data[q + 8]? = some data[q + 8] := getElem?_eq_getElem _
  have h10 : data[q + 10]? = some data[q + 10] := getElem?_eq_getElem _
  rw [ReadAs]
  by_cases hacc : Accepted data q
  · obtain ⟨hop, hfits, hbyte⟩ := id hacc
    rw [readPackage, if_pos hop, if_pos (by omega), if_pos hfits, readElements, if_pos hbyte, h8]
    simp only [readSecond, h10, hacc, Option.some.injEq, true_and, not_true_eq_false, false_and,
      or_false]
    split
    next h9 => simp [h9]
    next h9 => simp [h9]
  · have hsame : readPackage data q s = s := by
      rw [readPackage]
      split
      next hop =>
        rw [if_pos (by omega)]
        dsimp only
        split
        next hfits =>
          have hbyte : data[q + 7]? ≠ some 0x0A := fun hbyte => hacc ⟨hop, hfits, hbyte⟩
          rw [readElements, if_neg hbyte, readSecond, if_neg hbyte]
        next => rfl
      next => rfl
    simp [hsame, hacc]

end Search

/-- The length field has 32 bits. -/
theorem tableData_length {mem data : Bytes} (h : tableData mem = some data) :
    data.length < 2 ^ 32 := by
  rw [tableData, leAt] at h
  split at h
  next =>
    have hlt := leVal_lt (fun i => mem.getD (4 + i) 0) 4
    rw [Option.bind_eq_bind, Option.bind_some] at h
    split at h
    next =>
      cases h
      rw [length_take]
      omega
    next => cases h
  next => cases h

/-- **`Name(_S5_, Package)` in standard encoding**, the first one of the table: a length of one byte
that counts the elements, and at least two elements of one byte each, `a` and `b` first. -/
structure StandardS5 (data : Bytes) (p : Nat) (a b : UInt8) : Prop where
  name : NameAt data p 0x5F
  first : ∀ q < p, ¬ NameAt data q 0x5F
  body : 36 ≤ p
  packageOp : data[p + 5]? = some 0x12
  package : ∃ count : UInt8, data[p + 7]? = some count ∧ 2 ≤ count.toNat ∧
    2 + 2 * count.toNat < 0x40 ∧ data[p + 6]? = some (2 + 2 * count) ∧
    ∀ k < count.toNat, data[p + 8 + 2 * k]? = some 0x0A ∧ p + 9 + 2 * k < data.length
  a : data[p + 9]? = some a
  b : data[p + 11]? = some b

/-- The first name that the search stops at. -/
def FirstFound (data : Bytes) (q : Nat) : Prop :=
  q + 20 < data.length ∧ Found data q ∧ ∀ i < q, ¬ Found data i

/-- **When the sleep types are found.** The search stays inside of the table exactly when the table
has at least 20 bytes or a name of its own kind. For a table with a standard package it stores the
package's values exactly when the first name of its own kind is followed by the same values, in its
own encoding, or when there is nothing for it to read and the values are there already. -/
theorem parseS5_iff {mem data : Bytes} (hdata : tableData mem = some data) (s : SleepTypes) :
    (parseS5 mem s ≠ none ↔ 20 ≤ data.length ∨ ∃ i, Found data i) ∧
    ∀ p a b, StandardS5 data p a b → (parseS5 mem s = some ⟨a, b⟩ ↔
      (∃ q, FirstFound data q ∧ ReadAs data q s a b) ∨
        (¬ ∃ q, FirstFound data q) ∧ s = ⟨a, b⟩) := by
  have hsmall := tableData_length hdata
  have hrun : parseS5 mem s = searchS5 data s 0 ((data.length + (2 ^ 64 - 20)) % 2 ^ 64) := by
    rw [parseS5, hdata, Option.bind_eq_bind, Option.bind_some]
  rw [hrun]
  by_cases hlong : 20 ≤ data.length
  · have hbound : (data.length + (2 ^ 64 - 20)) % 2 ^ 64 = data.length - 20 := by omega
    rw [hbound]
    by_cases hfound : ∃ q, FirstFound data q
    · obtain ⟨q, hq⟩ := id hfound
      have hlast := hq.1
      rw [searchS5_hit (fun j _ hj => hq.2.2 j hj) (Nat.zero_le q) (by omega) hq.2.1]
      refine ⟨iff_of_true (Option.some_ne_none _) (.inl hlong), fun p a b _ => ?_⟩
      rw [Option.some.injEq, readPackage_eq_iff hlast, or_iff_left fun h => h.1 hfound]
      constructor
      · exact fun h => ⟨q, hq, h⟩
      · rintro ⟨q', hq', h⟩
        have hsame : q = q' := Nat.le_antisymm
          (Nat.not_lt.mp fun hlt => hq.2.2 q' hlt hq'.2.1)
          (Nat.not_lt.mp fun hlt => hq'.2.2 q hlt hq.2.1)
        exact hsame ▸ h
    · have hnone : ∀ j, 0 ≤ j → j < 0 + (data.length - 20) → ¬ Found data j := by
        intro j _ hj hfj
        -- the first name found is in front of this one
        have hex : ∃ i, Found data i := ⟨j, hfj⟩
        have hle := Nat.find_min' hex hfj
        exact hfound ⟨_, by omega, Nat.find_spec hex, fun i hi => Nat.find_min hex hi⟩
      rw [searchS5_miss hnone (by omega)]
      refine ⟨iff_of_true (Option.some_ne_none _) (.inl hlong), fun p a b _ => ?_⟩
      rw [Option.some.injEq, or_iff_right fun ⟨q, hq, _⟩ => hfound ⟨q, hq⟩, and_iff_right hfound]
  · obtain ⟨n, hbound, hn⟩ : ∃ n, (data.length + (2 ^ 64 - 20)) % 2 ^ 64 = n ∧ data.length < n :=
      ⟨_, rfl, by omega⟩
    rw [hbound]
    constructor
    · rw [or_iff_right hlong]
      constructor
      · intro hret
        by_contra hnone
        exact hret (searchS5_past (fun j hj => hnone ⟨j, hj⟩) (Nat.zero_le _) (by omega))
      · intro hfound
        have hin := (Nat.find_spec hfound).1
        rw [searchS5_hit (fun j _ hj => Nat.find_min hfound hj) (Nat.zero_le _) (by omega)
          (Nat.find_spec hfound)]
        exact Option.some_ne_none _
    · intro p a b hstandard
      have hin : p + 11 < data.length := (List.getElem?_eq_some_iff.mp hstandard.b).1
      have hbody := hstandard.body
      omega

/-- A table of a header, a standard package with the values 5 and 7, and 20 more bytes. -/
def sampleDsdt : Bytes :=
  [0x44, 0x53, 0x44, 0x54, 68, 0, 0, 0] ++ replicate 28 0 ++
    [0x08, 0x5F, 0x53, 0x35, 0x5F, 0x12, 6, 2, 0x0A, 5, 0x0A, 7] ++ replicate 20 0

theorem sampleDsdt_standard : StandardS5 sampleDsdt 36 5 7 where
  name := by decide
  first := by decide
  body := le_rfl
  packageOp := rfl
  package := ⟨2, by decide⟩
  a := rfl
  b := rfl

/-- The same package with the values in the form that the search wants in front of it. -/
def namedDsdt : Bytes :=
  [0x44, 0x53, 0x44, 0x54, 79, 0, 0, 0] ++ replicate 28 0 ++
    [0x08, 0x5F, 0x53, 0x35, 0, 0x12, 4, 0x0A, 5, 0x0A, 7] ++
    [0x08, 0x5F, 0x53, 0x35, 0x5F, 0x12, 6, 2, 0x0A, 5, 0x0A, 7] ++ replicate 20 0

/-- The values are stored. -/
theorem parseS5_named : StandardS5 namedDsdt 47 5 7 ∧ parseS5 namedDsdt ⟨0, 0⟩ = some ⟨5, 7⟩ := by
  have hdata : tableData namedDsdt = some namedDsdt := by decide +kernel
  have hstandard : StandardS5 namedDsdt 47 5 7 :=
    ⟨by decide, by decide, by decide, rfl, ⟨2, by decide⟩, rfl, rfl⟩
  have hfirst : FirstFound namedDsdt 36 := ⟨by decide, by decide, by decide⟩
  have hread : ReadAs namedDsdt 36 ⟨0, 0⟩ 5 7 :=
    .inl ⟨⟨rfl, by decide, rfl⟩, rfl, .inl ⟨rfl, rfl⟩⟩
  exact ⟨hstandard,
    ((parseS5_iff hdata ⟨0, 0⟩).2 47 5 7 hstandard).mpr (.inl ⟨36, hfirst, hread⟩)⟩

/-- The package is not found, and a length of 8 in the header leads past the end of the table. -/
theorem parseS5_misses : StandardS5 sampleDsdt 36 5 7 ∧ parseS5 sampleDsdt ⟨0, 0⟩ = some ⟨0, 0⟩ ∧
    parseS5 ([0x44, 0x53, 0x44, 0x54, 8, 0, 0, 0] ++ replicate 28 0) ⟨0, 0⟩ = none :=
  ⟨sampleDsdt_standard, by decide +kernel, by decide +kernel⟩

end PlanckOS.Acpi
