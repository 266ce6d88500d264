import PlanckOS.Lib.Word

/-!
# The MADT of `src/hal/acpi.rs`

`parse_madt` walks over the records behind the fixed part of the table. A record starts with its
type and its length, and the walk goes on as long as a length is at least 2 and inside of the table.
`none` is an index past the end of the slice; that the walk ends is part of its definition.

`Splits` is the grammar: the longest list of records that the bytes start with. The walk reads
exactly these (`parseEntries_eq`), and what it leaves in `MADT` is a function of them
(`parseMadt_eq_grammar`).
-/

set_option autoImplicit false

namespace PlanckOS.Acpi

open Lib.Word List

variable {off k n : Nat} {cpus : Nat × Bytes}

/-! ## Model -/

/-- `n` bytes of a slice as a number, the lowest first. -/
def leAt (data : Bytes) (off n : Nat) : Option Nat :=
  if off + n ≤ data.length then some (leVal (fun i => data.getD (off + i) 0) n) else none

/-- The slice of a table, with the length that its header has. -/
def tableData (mem : Bytes) : Option Bytes := do
  let len ← leAt mem 4 4
  if len ≤ mem.length then pure (mem.take len) else none

def MAX_CPUS : Nat := 8

structure MadtInfo where
  lapicBase : Nat
  ioApicAddr : Nat
  ioApicId : UInt8
  cpuCount : Nat
  cpuApicIds : Bytes
  pcatCompat : Bool
  deriving DecidableEq, Repr

/-- The static `MADT` at the start. -/
def MadtInfo.cleared : MadtInfo where
  lapicBase := 0xFEE00000
  ioApicAddr := 0
  ioApicId := 0
  cpuCount := 0
  cpuApicIds := replicate MAX_CPUS 0
  pcatCompat := false

/-- The match on the type of the record at `off`. -/
def parseEntry (data : Bytes) (off : Nat) (etype : UInt8) (elen : Nat) (madt : MadtInfo) :
    Option MadtInfo :=
  if etype = 0 then
    -- local APIC
    if 8 ≤ elen then do
      let apicId ← data[off + 3]?
      let ena ← leAt data (off + 4) 4
      if ena &&& 1 ≠ 0 ∧ madt.cpuCount < MAX_CPUS then
        pure { madt with
          cpuApicIds := madt.cpuApicIds.set madt.cpuCount apicId
          cpuCount := madt.cpuCount + 1 }
      else pure madt
    else pure madt
  else if etype = 1 then
    -- IO-APIC
    if 12 ≤ elen then do
      let ioApicId ← data[off + 2]?
      let ioApicAddr ← leAt data (off + 4) 4
      pure { madt with ioApicId := ioApicId, ioApicAddr := ioApicAddr }
    else pure madt
  else if etype = 5 then
    -- LAPIC address override
    if 12 ≤ elen then do
      let a ← leAt data (off + 4) 8
      pure (if a ≠ 0 then { madt with lapicBase := a } else madt)
    else pure madt
  else pure madt

/-- The loop over the records. -/
def parseEntries (data : Bytes) (off : Nat) (madt : MadtInfo) : Option MadtInfo :=
  if off + 2 ≤ data.length then do
    let etype ← data[off]?
    let elen ← data[off + 1]?
    if elen.toNat < 2 ∨ data.length < off + elen.toNat then pure madt
    else do
      let madt ← parseEntry data off etype elen.toNat madt
      parseEntries data (off + elen.toNat) madt
  else some madt
termination_by data.length - off

def parseMadt (mem : Bytes) (madt : MadtInfo) : Option MadtInfo := do
  let data ← tableData mem
  if data.length < 48 then pure madt
  else do
    let lapicAddr ← leAt data 36 4
    let flags ← leAt data 40 4
    parseEntries data 44 { madt with lapicBase := lapicAddr, pcatCompat := flags &&& 1 ≠ 0 }

/-! ## The grammar -/

/-- A record: a type, a length of at least 2, and as many bytes as it says. -/
def IsRecord (r : Bytes) : Prop := 2 ≤ r.length ∧ ∃ n ∈ r[1]?, n.toNat = r.length
  deriving Decidable

/-- The records that a list of bytes starts with, as many as there are. -/
inductive Splits : Bytes → List Bytes → Prop
  | stop {body : Bytes} (h : ∀ r, IsRecord r → ¬ r <+: body) : Splits body []
  | record {r rest : Bytes} {records : List Bytes} (hr : IsRecord r)
      (h : Splits rest records) : Splits (r ++ rest) (r :: records)

/-- The APIC id of an enabled core. -/
def apicId (r : Bytes) : Option UInt8 :=
  if r[0]? = some 0 ∧ 8 ≤ r.length ∧ ∃ ena ∈ leAt r 4 4, ena &&& 1 ≠ 0 then r[3]? else none

/-- The id and the address of an IO-APIC. -/
def ioApic (r : Bytes) : Option (UInt8 × Nat) :=
  if r[0]? = some 1 ∧ 12 ≤ r.length then
    (r[2]?).bind fun id => (leAt r 4 4).map fun addr => (id, addr) else none

/-- An address for the local APICs. -/
def lapicOverride (r : Bytes) : Option Nat :=
  if r[0]? = some 5 ∧ 12 ≤ r.length then (leAt r 4 8).filter (· ≠ 0) else none

section Grammar

variable {data body r rest ids : Bytes} {records records' : List Bytes}
  {madt : MadtInfo} {β : Type}

/-- The record that a list of bytes starts with, if it does, is given by the second byte. -/
theorem record_iff : IsRecord r ∧ r <+: body ↔
    ∃ n, body[1]? = some n ∧ 2 ≤ n.toNat ∧ n.toNat ≤ body.length ∧ r = body.take n.toNat := by
  constructor
  · rintro ⟨⟨hlen, n, hn, hsize⟩, rest, rfl⟩
    refine ⟨n, ?_, by omega, ?_, ?_⟩
    · rw [getElem?_append_left (by omega)]
      exact hn
    · rw [length_append]
      omega
    · rw [hsize, take_left]
  · rintro ⟨n, hn, hlen, hfits, rfl⟩
    have hsize : (body.take n.toNat).length = n.toNat := length_take_of_le hfits
    refine ⟨⟨hlen.trans_eq hsize.symm, n, ?_, hsize.symm⟩, take_prefix _ _⟩
    rw [getElem?_take_of_lt (by omega)]
    exact hn

theorem splits_exists (body : Bytes) : ∃ records, Splits body records := by
  by_cases h : ∃ r, IsRecord r ∧ r <+: body
  · obtain ⟨r, hr, rest, hbody⟩ := h
    have hshorter : rest.length < body.length := by
      have hlen := hr.1
      rw [← hbody, length_append]
      omega
    obtain ⟨records, hrest⟩ := splits_exists rest
    exact ⟨_, hbody ▸ Splits.record hr hrest⟩
  · exact ⟨[], .stop fun r hr hin => h ⟨r, hr, hin⟩⟩
termination_by body.length

/-- Records one behind the other. -/
theorem splits_flatten (hr : ∀ r ∈ records, IsRecord r) (hrest : Splits rest []) :
    Splits (records.flatten ++ rest) records := by
  induction records with
  | nil => exact hrest
  | cons r records ih =>
    rw [forall_mem_cons] at hr
    rw [flatten_cons, append_assoc]
    exact .record hr.1 (ih hr.2)

theorem Splits.unique (h : Splits body records) (h' : Splits body records') :
    records = records' := by
  induction h generalizing records' with
  | stop hnone =>
    cases h' with
    | stop => rfl
    | record hr _ => exact absurd (prefix_append _ _) (hnone _ hr)
  | @record r rest records hr _ ih =>
    generalize hbody : r ++ rest = body at h'
    cases h' with
    | stop hnone => exact absurd ⟨rest, hbody⟩ (hnone _ hr)
    | @record r' rest' _ hr' h' =>
      -- both records are the bytes that the second byte counts
      obtain ⟨n, hn, -, -, htake⟩ := record_iff.mp ⟨hr, rest, hbody⟩
      obtain ⟨n', hn', -, -, htake'⟩ := record_iff.mp ⟨hr', prefix_append r' rest'⟩
      obtain rfl := Option.some.inj (hn.symm.trans hn')
      obtain rfl := htake.trans htake'.symm
      rw [ih (append_cancel_left hbody ▸ h')]

/-! ## The walk -/

/-- An enabled core, as long as there is room. -/
def addCpu (cpus : Nat × Bytes) (id : UInt8) : Nat × Bytes :=
  if cpus.1 < MAX_CPUS then (cpus.1 + 1, cpus.2.set cpus.1 id) else cpus

/-- What a record adds to the `MADT`. -/
def MadtInfo.add (madt : MadtInfo) (r : Bytes) : MadtInfo :=
  let cpus :=
    (apicId r).elim (madt.cpuCount, madt.cpuApicIds) (addCpu (madt.cpuCount, madt.cpuApicIds))
  let io := (ioApic r).getD (madt.ioApicId, madt.ioApicAddr)
  { madt with
    cpuCount := cpus.1
    cpuApicIds := cpus.2
    ioApicId := io.1
    ioApicAddr := io.2
    lapicBase := (lapicOverride r).getD madt.lapicBase }

theorem getElem?_of_drop (h : data.drop off = r ++ rest) (hk : k < r.length) :
    data[off + k]? = r[k]? := by
  rw [← getElem?_drop, h, getElem?_append_left hk]

theorem leAt_eq (data : Bytes) (h : off + n ≤ data.length) :
    leAt data off n = some (leVal (fun i => data.getD (off + i) 0) n) := if_pos h

theorem leAt_of_drop (hr : IsRecord r) (h : data.drop off = r ++ rest)
    (hk : k + n ≤ r.length) : leAt data (off + k) n = leAt r k n := by
  have hlen := congrArg length h
  have hpos := hr.1
  rw [length_drop, length_append] at hlen
  rw [leAt_eq data (by omega), leAt_eq r hk]
  refine congrArg some (leVal_congr fun i hi => ?_)
  rw [getD_eq_getElem?_getD, getD_eq_getElem?_getD, Nat.add_assoc, getElem?_of_drop h (by omega)]

/-- A record is read at its place, and nothing but the record. -/
theorem parseEntry_eq (hr : IsRecord r) (h : data.drop off = r ++ rest) {etype : UInt8}
    (htype : r[0]? = some etype) : parseEntry data off etype r.length madt = some (madt.add r) := by
  have hbyte {k : Nat} (hk : k < r.length) : ∃ b, data[off + k]? = some b ∧ r[k]? = some b :=
    ⟨r[k], by rw [getElem?_of_drop h hk, getElem?_eq_getElem hk], getElem?_eq_getElem hk⟩
  have hword {k n : Nat} (hk : k + n ≤ r.length) : ∃ a, leAt data (off + k) n = some a ∧
      leAt r k n = some a := ⟨_, by rw [leAt_of_drop hr h hk, leAt_eq r hk], leAt_eq r hk⟩
  rw [parseEntry, MadtInfo.add, apicId, ioApic, lapicOverride, htype]
  by_cases h0 : etype = 0
  · subst h0
    by_cases hlong : 8 ≤ r.length
    · obtain ⟨id, hid, hid'⟩ := hbyte (k := 3) (by omega)
      obtain ⟨ena, hena, hena'⟩ := hword (k := 4) (n := 4) (by omega)
      by_cases hon : ena % 2 = 1 <;> by_cases hroom : madt.cpuCount < MAX_CPUS <;>
        simp [hlong, hid, hid', hena, hena', hon, hroom, addCpu]
    · simp [hlong]
  by_cases h1 : etype = 1
  · subst h1
    by_cases hlong : 12 ≤ r.length
    · obtain ⟨id, hid, hid'⟩ := hbyte (k := 2) (by omega)
      obtain ⟨addr, haddr, haddr'⟩ := hword (k := 4) (n := 4) (by omega)
      simp [hlong, hid, hid', haddr, haddr']
    · simp [hlong]
  by_cases h5 : etype = 5
  · subst h5
    by_cases hlong : 12 ≤ r.length
    · obtain ⟨addr, haddr, haddr'⟩ := hword (k := 4) (n := 8) (by omega)
      by_cases hzero : addr = 0 <;> simp [hlong, haddr, haddr', hzero, Option.filter]
    · simp [hlong]
  · simp [h0, h1, h5]

/-- **The walk reads the records of the grammar**, in their order, and ends behind them. -/
theorem parseEntries_eq (h : Splits body records) (hbody : data.drop off = body) :
    parseEntries data off madt = some (records.foldl MadtInfo.add madt) := by
  induction h generalizing off madt with
  | @stop body hnone =>
    rw [parseEntries]
    split
    next hin =>
      have h1 : data[off + 1]? = some (data[off + 1]) := getElem?_eq_getElem (by omega)
      rw [getElem?_eq_getElem (show off < data.length by omega), h1]
      simp only [Option.bind_eq_bind, Option.bind_some]
      rw [if_pos]
      · rfl
      · -- otherwise there is one more record
        by_contra hgo
        rw [not_or] at hgo
        have hone : body[1]? = some data[off + 1] := by rw [← hbody, getElem?_drop, h1]
        have hfits : (data[off + 1]).toNat ≤ body.length := by
          rw [← hbody, length_drop]
          omega
        obtain ⟨hrecord, hfront⟩ := record_iff.mpr ⟨_, hone, by omega, hfits, rfl⟩
        exact hnone _ hrecord hfront
    next => rfl
  | @record r rest records hr _ ih =>
    have hlen := hr.1
    obtain ⟨n, hn, hsize⟩ := hr.2
    have hends := congrArg length hbody
    rw [length_drop, length_append] at hends
    have h0 : r[0]? = some r[0] := getElem?_eq_getElem (by omega)
    have hread : data[off]? = some r[0] := (getElem?_of_drop hbody (k := 0) (by omega)).trans h0
    have hread' : data[off + 1]? = some n := (getElem?_of_drop hbody (by omega)).trans hn
    rw [parseEntries, if_pos (by omega), hread, hread']
    simp only [Option.bind_eq_bind, Option.bind_some]
    rw [if_neg (by omega), hsize, parseEntry_eq hr hbody h0, Option.bind_some, foldl_cons]
    apply ih
    rw [← drop_drop, hbody, drop_left]

/-! ## What the records say -/

/-- A component of the `MADT`, record by record. -/
theorem foldl_add (f : MadtInfo → β) (step : β → Bytes → β)
    (h : ∀ madt r, step (f madt) r = f (madt.add r)) :
    records.foldl step (f madt) = f (records.foldl MadtInfo.add madt) :=
  foldl_hom f h

/-- The last record that has a value decides. -/
theorem foldl_getD {ρ β : Type} (f : ρ → Option β) (l : List ρ) (b : β) :
    l.foldl (fun b r => (f r).getD b) b = ((l.filterMap f).getLast?).getD b := by
  induction l generalizing b with
  | nil => rfl
  | cons r l ih =>
    rw [foldl_cons, ih, filterMap_cons]
    cases f r with
    | none => rfl
    | some a => rw [getLast?_cons]; rfl

/-- The slots in use hold the first of the ids. -/
structure Cores (cpus : Nat × Bytes) (ids : Bytes) : Prop where
  count_le : cpus.1 ≤ MAX_CPUS
  length : cpus.2.length = MAX_CPUS
  ids : cpus.2.take cpus.1 = ids.take MAX_CPUS

theorem Cores.add (h : Cores cpus ids) (id : UInt8) : Cores (addCpu cpus id) (ids ++ [id]) := by
  have hcount := congrArg List.length h.ids
  rw [length_take, length_take, h.length, Nat.min_eq_left h.count_le] at hcount
  rw [addCpu]
  split
  next hroom =>
    refine ⟨hroom, length_set.trans h.length, ?_⟩
    have hall : ids.take MAX_CPUS = ids := take_of_length_le (by omega)
    rw [take_add_one, take_set_of_le le_rfl, getElem?_set_self (h.length ▸ hroom),
      h.ids, hall, take_of_length_le (by rw [length_append, length_singleton]; omega)]
    rfl
  next hfull => exact ⟨h.count_le, h.length, by rw [h.ids, take_append_of_le_length (by omega)]⟩

theorem Cores.foldl (h : Cores cpus ids) (l : List Bytes) :
    Cores (l.foldl (fun cpus r => (apicId r).elim cpus (addCpu cpus)) cpus)
      (ids ++ l.filterMap apicId) := by
  induction l generalizing cpus ids with
  | nil => rwa [filterMap_nil, append_nil]
  | cons r l ih =>
    rw [foldl_cons, filterMap_cons]
    cases apicId r with
    | none => exact ih h
    | some id => simpa using ih (h.add id)

end Grammar

/-- **`parse_madt` reads the table as the grammar does.** For every table of at least 48 bytes whose
header has its length, it returns without an index past the end, with the APIC ids of the first 8
enabled cores, the last IO-APIC, and the last address for the local APICs or else the one of the
fixed part. The records that this speaks about are the only ones that the table splits into. -/
theorem parseMadt_eq_grammar (table : Bytes) (hlen : 48 ≤ table.length)
    (hfield : leAt table 4 4 = some table.length) :
    ∃ records info fixed, Splits (table.drop 44) records ∧
      (∀ records', Splits (table.drop 44) records' → records' = records) ∧
      leAt table 36 4 = some fixed ∧ parseMadt table .cleared = some info ∧
      info.cpuApicIds.take info.cpuCount = (records.filterMap apicId).take 8 ∧
      (info.ioApicId, info.ioApicAddr) = ((records.filterMap ioApic).getLast?).getD (0, 0) ∧
      info.lapicBase = ((records.filterMap lapicOverride).getLast?).getD fixed := by
  obtain ⟨records, hsplit⟩ := splits_exists (table.drop 44)
  have hfixed := leAt_eq table (show 36 + 4 ≤ table.length by omega)
  have hflags := leAt_eq table (show 40 + 4 ≤ table.length by omega)
  have hdata : tableData table = some table := by
    simp [tableData, hfield]
  let start : MadtInfo := { MadtInfo.cleared with
    lapicBase := leVal (fun i => table.getD (36 + i) 0) 4
    pcatCompat := leVal (fun i => table.getD (40 + i) 0) 4 &&& 1 ≠ 0 }
  refine ⟨records, records.foldl MadtInfo.add start, _, hsplit, fun _ h => h.unique hsplit, hfixed,
    ?_, ?_, ?_, ?_⟩
  · rw [parseMadt, hdata]
    simp only [Option.bind_eq_bind, Option.bind_some]
    rw [if_neg (by omega), hfixed, hflags]
    exact parseEntries_eq hsplit rfl
  · have hcores : Cores (start.cpuCount, start.cpuApicIds) [] := ⟨Nat.zero_le _, rfl, rfl⟩
    have hids := (hcores.foldl records).ids
    rw [foldl_add (fun madt => (madt.cpuCount, madt.cpuApicIds)) _ fun _ _ => rfl] at hids
    exact hids
  · rw [← foldl_getD]
    exact (foldl_add (fun madt => (madt.ioApicId, madt.ioApicAddr)) _ fun _ _ => rfl).symm
  · rw [← foldl_getD]
    exact (foldl_add MadtInfo.lapicBase _ fun _ _ => rfl).symm

/-- Three cores, of which the second one is disabled, and an IO-APIC. -/
def sampleRecords : List Bytes :=
  [[0, 8, 0, 3, 1, 0, 0, 0], [0, 8, 1, 4, 0, 0, 0, 0], [0, 8, 2, 5, 1, 0, 0, 0],
    [1, 12, 9, 0, 0, 0, 0xC0, 0xFE, 0, 0, 0, 0]]

/-- The table with these records, behind them one of length 0. -/
def sampleMadt : Bytes :=
  [0x41, 0x50, 0x49, 0x43, 82, 0, 0, 0] ++ replicate 28 0 ++ [0, 0, 0xE0, 0xFE, 0, 0, 0, 0] ++
    sampleRecords.flatten ++ [0, 0]

theorem sampleMadt_splits : Splits (sampleMadt.drop 44) sampleRecords := by
  have hstop : Splits [0, 0] [] := .stop fun r hr hin => by
    obtain ⟨n, hn, hle, -⟩ := record_iff.mp ⟨hr, hin⟩
    obtain rfl : 0 = n := Option.some.inj hn
    exact absurd hle (by decide)
  exact splits_flatten (by decide) hstop

theorem parseMadt_sample : ∃ info, parseMadt sampleMadt .cleared = some info ∧
    info.cpuApicIds.take info.cpuCount = [3, 5] ∧
    (info.ioApicId, info.ioApicAddr) = (9, 0xFEC00000) ∧ info.lapicBase = 0xFEE00000 := by
  obtain ⟨records, info, fixed, -, hunique, hfixed, hrun, hids, hio, hbase⟩ :=
    parseMadt_eq_grammar sampleMadt (by decide) (by decide)
  obtain rfl := hunique _ sampleMadt_splits
  obtain rfl := Option.some.inj ((show leAt sampleMadt 36 4 = some 0xFEE00000 by decide).symm.trans
    hfixed)
  exact ⟨info, hrun, hids.trans (by decide), hio.trans (by decide), hbase.trans (by decide)⟩

end PlanckOS.Acpi
