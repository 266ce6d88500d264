import PlanckOS.Fat32.Device

/-!
# The ATA channel of `src/hal/ata.rs`

`read_sector` and `write_sector` as sequences of port accesses. The drive is what it answers: the
bytes and words that the reads of its ports still return, in their order. A call that has used up
the answers has not come back yet (`waiting`), so that the runs to completion are those on lists of
answers that are long enough.

`write_sector` polls the status register at four places. `dataPhase` says which answers are left
when the words of the sector have been sent, and `writeSector_ok` what the call returns then:
`true`, whatever the status behind the data is.
-/

set_option autoImplicit false

namespace PlanckOS.Ata

open Lib.Fallible Lib.Loop Fat32 List

variable {val st : UInt8} {lba : Nat} {buf : Sector}

/-! ## Ports -/

/-- An access to a port. -/
inductive Access where
  | inb (port : UInt16) (val : UInt8)
  | inw (port : UInt16) (val : UInt16)
  | outb (port : UInt16) (val : UInt8)
  | outw (port : UInt16) (val : UInt16)
  deriving DecidableEq

/-- The answers of the drive to come, and the accesses made, the last one first. -/
structure Bus where
  bytes : Bytes
  words : List UInt16
  log : List Access
  deriving DecidableEq

/-- The drive has not answered yet. -/
inductive Waiting where
  | waiting
  deriving DecidableEq

/-- A computation on the ports. -/
abbrev PortOp := Op Bus Waiting

/-- Read a byte. -/
def inb (port : UInt16) : PortOp UInt8 := fun bus =>
  match bus.bytes with
  | [] => .err .waiting bus
  | val :: rest => .ok val { bus with bytes := rest, log := .inb port val :: bus.log }

/-- Read a word. -/
def inw (port : UInt16) : PortOp UInt16 := fun bus =>
  match bus.words with
  | [] => .err .waiting bus
  | val :: rest => .ok val { bus with words := rest, log := .inw port val :: bus.log }

/-- Write a byte. -/
def outb (port : UInt16) (val : UInt8) : PortOp Unit :=
  Op.modify fun bus => { bus with log := .outb port val :: bus.log }

/-- Write a word. -/
def outw (port : UInt16) (val : UInt16) : PortOp Unit :=
  Op.modify fun bus => { bus with log := .outw port val :: bus.log }

/-- `loop { let st = inb(port); if ready(st) { return st; } }`. There is at most one round for each
answer. -/
def pollUntil (port : UInt16) (ready : UInt8 → Bool) : PortOp UInt8 := fun bus =>
  Op.loopM (fun _ => do
    let st ← inb port
    pure (if ready st then Flow.done st else .next ())) (bus.bytes.length + 1) () bus

/-! ## The channel -/

/-- The data register; the offsets count from the base port. -/
def DATA : UInt16 := 0
/-- The error register. -/
def ERROR : UInt16 := 1
/-- The number of sectors. -/
def SECTOR_COUNT : UInt16 := 2
/-- Bits 0 to 7 of the sector number. -/
def LBA_LO : UInt16 := 3
/-- Bits 8 to 15. -/
def LBA_MID : UInt16 := 4
/-- Bits 16 to 23. -/
def LBA_HI : UInt16 := 5
/-- The drive, and bits 24 to 27. -/
def DRIVE : UInt16 := 6
/-- Commands; the status, when read. -/
def CMD_STATUS : UInt16 := 7
/-- The offset of the control port and of the alternate status. -/
def CONTROL : UInt16 := 0x206

/-- Busy. -/
def STAT_BSY : UInt8 := 0x80
/-- Ready. -/
def STAT_DRDY : UInt8 := 0x40
/-- Data can be transferred. -/
def STAT_DRQ : UInt8 := 0x08
/-- The command failed. -/
def STAT_ERR : UInt8 := 0x01
/-- The drive has a fault. -/
def STAT_DF : UInt8 := 0x20

/-- Read sectors. -/
def CMD_READ : UInt8 := 0x20
/-- Write sectors. -/
def CMD_WRITE : UInt8 := 0x30
/-- Sectors are numbered. -/
def LBA_BIT : UInt8 := 0x40

/-- A drive and its base port. -/
structure AtaChannel where
  base : UInt16
  driveSelect : UInt8
  sectorCount : Nat
  deriving DecidableEq

/-- `BSY` is clear. -/
def idle (st : UInt8) : Bool := st &&& STAT_BSY = 0

/-- `DRQ` or `ERR` is set. -/
def requested (st : UInt8) : Bool := st &&& STAT_DRQ ≠ 0 ∨ st &&& STAT_ERR ≠ 0

namespace AtaChannel

variable (ch : AtaChannel)

/-- Four reads of the alternate status. -/
def delay : PortOp Unit := do
  let _ ← inb (ch.base + CONTROL)
  let _ ← inb (ch.base + CONTROL)
  let _ ← inb (ch.base + CONTROL)
  let _ ← inb (ch.base + CONTROL)
  pure ()

/-- Poll until the drive is idle. -/
def waitBsy : PortOp UInt8 := pollUntil (ch.base + CMD_STATUS) idle

/-- Poll until it asks for data, or failed. -/
def waitDrq : PortOp UInt8 := pollUntil (ch.base + CMD_STATUS) requested

/-- Both in one poll. -/
def waitForDrq : PortOp UInt8 :=
  pollUntil (ch.base + CMD_STATUS) fun st => idle st && requested st

/-- Select the drive and the sectors. -/
def lbaWrite (lba : Nat) (count : UInt8) : PortOp Unit := do
  outb (ch.base + SECTOR_COUNT) count
  outb (ch.base + LBA_LO) (UInt8.ofNat (lba &&& 0xFF))
  outb (ch.base + LBA_MID) (UInt8.ofNat (lba >>> 8 &&& 0xFF))
  outb (ch.base + LBA_HI) (UInt8.ofNat (lba >>> 16 &&& 0xFF))
  outb (ch.base + DRIVE) (ch.driveSelect ||| LBA_BIT ||| UInt8.ofNat (lba >>> 24 &&& 0x0F))

/-- The start of both transfers: wait for the drive, and reset it when it is not ready. -/
def settle : PortOp Unit := do
  let st ← ch.waitBsy
  if st &&& STAT_DRDY = 0 then do
    outb (ch.base + CONTROL) 0x04
    ch.delay
    outb (ch.base + CONTROL) 0x00
    ch.delay
    let _ ← ch.waitBsy
    pure ()
  else pure ()

/-- `n` words from the data port. -/
def readWords : Nat → PortOp (List UInt16)
  | 0 => pure []
  | n + 1 => do
      let w ← inw (ch.base + DATA)
      let ws ← readWords n
      pure (w :: ws)

/-- The sector, if the transfer succeeds. -/
def readSector (lba : Nat) : PortOp (Option Sector) := do
  ch.settle
  ch.lbaWrite lba 1
  outb (ch.base + CMD_STATUS) CMD_READ
  let st ← ch.waitForDrq
  if st &&& STAT_ERR ≠ 0 then do
    let _ ← inb (ch.base + ERROR)
    pure none
  else do
    let words ← ch.readWords 256
    let bytes :=
      words.flatMap fun w : UInt16 => [(w &&& 0xFF).toUInt8, ((w >>> 8) &&& 0xFF).toUInt8]
    let _ ← inb (ch.base + CMD_STATUS)
    pure (some (Sector.ofBuf fun i => bytes.getD i 0))

/-- The 256 words of a sector, to the data port. -/
def sendWords (buf : Sector) : PortOp Unit :=
  Op.forUpto (fun i => outw (ch.base + DATA)
    ((buf.buf (2 * i)).toUInt16 ||| (buf.buf (2 * i + 1)).toUInt16 <<< 8)) 256

/-- Whether the transfer succeeded. -/
def writeSector (lba : Nat) (buf : Sector) : PortOp Bool := do
  ch.settle
  ch.lbaWrite lba 1
  outb (ch.base + CMD_STATUS) CMD_WRITE
  ch.delay
  let st ← ch.waitBsy
  if st &&& STAT_ERR ≠ 0 then pure false
  else do
    let st ← ch.waitDrq
    if st &&& STAT_ERR ≠ 0 then pure false
    else do
      ch.sendWords buf
      -- the error is cleared, and nothing else depends on the status
      let st ← ch.waitBsy
      if st &&& STAT_ERR ≠ 0 then do
        let _ ← inb (ch.base + ERROR)
        pure true
      else pure true

end AtaChannel

/-! ## The answers that a transfer uses -/

/-- The first answer that is `ready`, and the answers behind it. -/
def first (ready : UInt8 → Bool) : Bytes → Option (UInt8 × Bytes)
  | [] => none
  | st :: rest => if ready st then some (st, rest) else first ready rest

/-- The answers behind the start of a transfer: the status of a reset drive is polled once more. -/
def settled (bytes : Bytes) : Option Bytes :=
  (first idle bytes).bind fun r =>
    if r.1 &&& STAT_DRDY = 0 then (first idle (r.2.drop 8)).map Prod.snd else some r.2

/-- The answers behind the data of a sector write. There are none when the drive reports an error
before the data. -/
def dataPhase (bytes : Bytes) : Option Bytes :=
  (settled bytes).bind fun bytes =>
    (first idle (bytes.drop 4)).bind fun r =>
      if r.1 &&& STAT_ERR ≠ 0 then none
      else (first requested r.2).bind fun r => if r.1 &&& STAT_ERR ≠ 0 then none else some r.2

/-- The drive neither reports an error nor a fault. -/
def Clean (st : UInt8) : Prop := st &&& STAT_ERR = 0 ∧ st &&& STAT_DF = 0
  deriving Decidable

/-- If the drive takes the data of the write, the status it gives then is clean. -/
def CleanFinish (bytes : Bytes) : Prop :=
  ∀ rest, dataPhase bytes = some rest → ∀ r, first idle rest = some r → Clean r.1

/-- The last status that was read behind the data of the last write. -/
def statusAfterData (ch : AtaChannel) (log : List Access) : Option UInt8 :=
  (log.takeWhile fun | .outw _ _ => false | _ => true).findSome? fun
    | .inb port val => if port = ch.base + CMD_STATUS then some val else none
    | _ => none

/-- The drive accepted the sector: the status behind the data is that of an idle drive, without an
error or a fault. -/
def Accepted (ch : AtaChannel) (log : List Access) : Prop :=
  ∃ st, statusAfterData ch log = some st ∧ idle st = true ∧ Clean st

/-! ## Single accesses -/

section Steps

variable {ch : AtaChannel} {port : UInt16} {ready : UInt8 → Bool} {bus bus' : Bus}

theorem inb_ok (h : inb port bus = .ok val bus') : bus.bytes = val :: bus'.bytes ∧
    bus'.log = .inb port val :: bus.log := by
  obtain ⟨bytes, words, log⟩ := bus
  cases bytes with
  | nil => cases h
  | cons b rest =>
    cases h
    exact ⟨rfl, rfl⟩

/-- A loop over the status ends at the first answer that is ready. -/
theorem pollUntil_ok (h : pollUntil port ready bus = .ok st bus') :
    first ready bus.bytes = some (st, bus'.bytes) ∧ ready st = true ∧
      ∃ polled : Bytes, bus'.log = .inb port st :: (polled.map (.inb port) ++ bus.log) := by
  obtain ⟨bytes, words, log⟩ := bus
  rw [pollUntil] at h
  simp only at h
  induction bytes generalizing log with
  | nil => cases h
  | cons b rest ih =>
    rw [first]
    have hround : (inb port >>= fun st => pure (if ready st then Flow.done st else .next ()) :
        PortOp (Flow Unit UInt8)) ⟨b :: rest, words, log⟩ =
          .ok (if ready b then .done b else .next ()) ⟨rest, words, .inb port b :: log⟩ := rfl
    cases hb : ready b with
    | true =>
      rw [hb] at hround
      rw [length_cons, Op.loopM_done hround] at h
      cases h
      exact ⟨rfl, hb, [], rfl⟩
    | false =>
      rw [hb] at hround
      rw [length_cons, Op.loopM_next hround] at h
      obtain ⟨hfirst, hready, polled, hlog⟩ := ih _ h
      refine ⟨hfirst, hready, polled ++ [b], ?_⟩
      simp [hlog]

theorem outb_bytes (port : UInt16) (val : UInt8) (h : outb port val bus = .ok () bus') :
    bus'.bytes = bus.bytes := by
  cases h
  rfl

theorem delay_ok (h : ch.delay bus = .ok () bus') : bus'.bytes = bus.bytes.drop 4 := by
  obtain ⟨_, b1, h1, h⟩ := Op.bind_eq_ok h
  obtain ⟨_, b2, h2, h⟩ := Op.bind_eq_ok h
  obtain ⟨_, b3, h3, h⟩ := Op.bind_eq_ok h
  obtain ⟨_, b4, h4, h⟩ := Op.bind_eq_ok h
  cases h
  rw [(inb_ok h1).1, (inb_ok h2).1, (inb_ok h3).1, (inb_ok h4).1]
  rfl

theorem lbaWrite_ok {count : UInt8} (h : ch.lbaWrite lba count bus = .ok () bus') :
    bus'.bytes = bus.bytes := by
  cases h
  rfl

theorem settle_ok (h : ch.settle bus = .ok () bus') : settled bus.bytes = some bus'.bytes := by
  obtain ⟨st, b1, h1, h⟩ := Op.bind_eq_ok h
  rw [settled, (pollUntil_ok h1).1, Option.bind_some]
  split_ifs at h ⊢ with hready
  · obtain ⟨_, b2, h2, h⟩ := Op.bind_eq_ok h
    obtain ⟨_, b3, h3, h⟩ := Op.bind_eq_ok h
    obtain ⟨_, b4, h4, h⟩ := Op.bind_eq_ok h
    obtain ⟨_, b5, h5, h⟩ := Op.bind_eq_ok h
    obtain ⟨st', b6, h6, h⟩ := Op.bind_eq_ok h
    cases h
    have hbytes : b5.bytes = b1.bytes.drop 8 := by
      rw [delay_ok h5, outb_bytes _ _ h4, delay_ok h3, outb_bytes _ _ h2, drop_drop]
    rw [← hbytes, (pollUntil_ok h6).1]
    rfl
  · cases h
    rfl

theorem outWords_ok {word : Nat → UInt16} {n : Nat}
    (h : Op.forUpto (fun i => outw port (word i)) n bus = .ok () bus') :
    bus'.bytes = bus.bytes ∧ (0 < n → ∃ w log, bus'.log = .outw port w :: log) := by
  induction n generalizing bus' with
  | zero =>
    cases h
    exact ⟨rfl, fun h => absurd h (lt_irrefl 0)⟩
  | succ n ih =>
    obtain ⟨_, b1, h1, h⟩ := Op.bind_eq_ok h
    cases h
    exact ⟨(ih h1).1, fun _ => ⟨_, _, rfl⟩⟩

/-- The last access of the words of a sector is one to the data port. -/
theorem sendWords_ok (h : ch.sendWords buf bus = .ok () bus') :
    bus'.bytes = bus.bytes ∧ ∃ w log, bus'.log = .outw (ch.base + DATA) w :: log :=
  ⟨(outWords_ok h).1, (outWords_ok h).2 (by decide)⟩

end Steps

/-! ## A sector write -/

section Write

variable {ch : AtaChannel} {bus bus' : Bus}

theorem status_ne_error (ch : AtaChannel) : ch.base + ERROR ≠ ch.base + CMD_STATUS := by
  simp [ERROR, CMD_STATUS]

/-- The status behind the data, in front of it the reads of a busy drive. -/
theorem statusAfterData_polled {polled : Bytes} {port w : UInt16}
    {log : List Access} : statusAfterData ch (.inb (ch.base + CMD_STATUS) st ::
      (polled.map (.inb (ch.base + CMD_STATUS)) ++ .outw port w :: log)) = some st := by
  simp [statusAfterData]

theorem statusAfterData_cleared {log : List Access} :
    statusAfterData ch (.inb (ch.base + ERROR) val :: log) = statusAfterData ch log := by
  rw [statusAfterData, takeWhile_cons_of_pos rfl, findSome?_cons]
  simp only [if_neg (status_ne_error ch)]
  rfl

/-- **A sector write returns `true` exactly when the drive takes the data.** The status behind the
data is the first one of an idle drive. -/
theorem writeSector_ok {r : Bool}
    (h : ch.writeSector lba buf bus = .ok r bus') : (r = false ∧ dataPhase bus.bytes = none) ∨
    (r = true ∧ ∃ rest st rest', dataPhase bus.bytes = some rest ∧
      first idle rest = some (st, rest') ∧ idle st = true ∧
      statusAfterData ch bus'.log = some st) := by
  obtain ⟨_, b1, h1, h⟩ := Op.bind_eq_ok h
  obtain ⟨_, b2, h2, h⟩ := Op.bind_eq_ok h
  obtain ⟨_, b3, h3, h⟩ := Op.bind_eq_ok h
  obtain ⟨_, b4, h4, h⟩ := Op.bind_eq_ok h
  obtain ⟨st, b5, h5, h⟩ := Op.bind_eq_ok h
  have hbytes : b4.bytes = b1.bytes.drop 4 := by
    rw [delay_ok h4, outb_bytes _ _ h3, lbaWrite_ok h2]
  have hphase : dataPhase bus.bytes = if st &&& STAT_ERR ≠ 0 then none
      else (first requested b5.bytes).bind fun r =>
        if r.1 &&& STAT_ERR ≠ 0 then none else some r.2 := by
    rw [dataPhase, settle_ok h1, Option.bind_some, ← hbytes, (pollUntil_ok h5).1, Option.bind_some]
  rw [hphase]
  split_ifs at h ⊢ with herr
  · cases h
    exact .inl ⟨rfl, rfl⟩
  · obtain ⟨st', b6, h6, h⟩ := Op.bind_eq_ok h
    rw [(pollUntil_ok h6).1, Option.bind_some]
    split_ifs at h ⊢ with herr'
    · cases h
      exact .inl ⟨rfl, rfl⟩
    · obtain ⟨_, b7, h7, h⟩ := Op.bind_eq_ok h
      obtain ⟨st'', b8, h8, h⟩ := Op.bind_eq_ok h
      obtain ⟨hsent, w, log, hlog⟩ := sendWords_ok h7
      obtain ⟨hfirst, hidle, polled, hpolled⟩ := pollUntil_ok h8
      rw [hlog] at hpolled
      rw [hsent] at hfirst
      refine .inr ?_
      split_ifs at h with hcleared
      · obtain ⟨val, b9, h9, h⟩ := Op.bind_eq_ok h
        cases h
        refine ⟨rfl, _, st'', _, rfl, hfirst, hidle, ?_⟩
        rw [(inb_ok h9).2, statusAfterData_cleared, hpolled, statusAfterData_polled]
      · cases h
        exact ⟨rfl, _, st'', _, rfl, hfirst, hidle, by rw [hpolled, statusAfterData_polled]⟩

end Write

end PlanckOS.Ata
