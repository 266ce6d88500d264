import PlanckOS.Ata.Channel

/-!
# Sector transfers, access by access

What holds across each access to a register of the channel holds across a whole transfer, whatever
the drive answers (`CoversData.readSector`, `CoversData.writeSector`). So a transfer stays on its
channel (`transfers_on_channel`).
-/

set_option autoImplicit false

namespace PlanckOS.Ata

open Lib.Fallible Fat32 List

/-- The bus after an access. -/
def Bus.after (bus : Bus) (a : Access) : Bus where
  bytes := match a with
    | .inb _ _ => bus.bytes.tail
    | _ => bus.bytes
  words := match a with
    | .inw _ _ => bus.words.tail
    | _ => bus.words
  log := a :: bus.log

/-- The registers, as offsets from the base of the channel. -/
def registers : List UInt16 :=
  [DATA, ERROR, SECTOR_COUNT, LBA_LO, LBA_MID, LBA_HI, DRIVE, CMD_STATUS, CONTROL]

/-- A relation across all accesses besides the data. -/
structure Covers (ch : AtaChannel) (R : Bus → Bus → Prop) : Prop where
  refl : ∀ b, R b b
  trans : ∀ {b b₁ b₂}, R b b₁ → R b₁ b₂ → R b b₂
  byte : ∀ b val, ∀ off ∈ registers, R b (b.after (.inb (ch.base + off) val)) ∧
    R b (b.after (.outb (ch.base + off) val))

/-- A relation across the data, too. -/
structure CoversData (ch : AtaChannel) (R : Bus → Bus → Prop) : Prop extends Covers ch R where
  word : ∀ b w, R b (b.after (.inw (ch.base + DATA) w)) ∧ R b (b.after (.outw (ch.base + DATA) w))

/-- The relation holds between the states before and after, however the computation ends. -/
structure Within {α : Type} (R : Bus → Bus → Prop) (x : PortOp α) : Prop where
  leaves : ∀ bus, (x bus).Leaves (R bus)

namespace Covers

variable {ch : AtaChannel} {R : Bus → Bus → Prop} {α β : Type} {o : UInt16} (h : Covers ch R)
include h

theorem pure (a : α) : Within R (pure a : PortOp α) := ⟨h.refl⟩

theorem bind {x : PortOp α} {f : α → PortOp β} (hx : Within R x) (hf : ∀ a, Within R (f a)) :
    Within R (x >>= f) := by
  refine ⟨fun bus => sat_bind ((hx.leaves bus).mono (fun a b hb => ?_) fun _ _ hb => hb)⟩
  exact ((hf a).leaves b).mono (fun _ _ => h.trans hb) fun _ _ => h.trans hb

theorem inb (ho : o ∈ registers) : Within R (inb (ch.base + o)) := by
  refine ⟨fun ⟨bytes, words, log⟩ => ?_⟩
  cases bytes with
  | nil => exact h.refl _
  | cons val rest => exact (h.byte ⟨val :: rest, words, log⟩ val o ho).1

theorem outb (ho : o ∈ registers) (val : UInt8) : Within R (outb (ch.base + o) val) :=
  ⟨fun bus => (h.byte bus val o ho).2⟩

theorem poll (ho : o ∈ registers) (ready : UInt8 → Bool) :
    Within R (pollUntil (ch.base + o) ready) := by
  refine ⟨fun bus => sat_loopM (I := fun _ b => R bus b) (fun _ b hb => ?_) (h.refl bus)⟩
  refine sat_bind (((h.inb ho).leaves b).mono (fun st b' hb' => ?_) fun _ _ => h.trans hb)
  cases ready st <;> exact h.trans hb hb'

theorem delay : Within R ch.delay := by
  have hstatus := h.inb (o := CONTROL) (by decide)
  exact h.bind hstatus fun _ => h.bind hstatus fun _ => h.bind hstatus fun _ =>
    h.bind hstatus fun _ => h.pure ()

theorem settle : Within R ch.settle := by
  have hbusy := h.poll (o := CMD_STATUS) (by decide) idle
  refine h.bind hbusy fun st => ?_
  split_ifs
  · exact h.bind (h.outb (by decide) _) fun _ => h.bind h.delay fun _ =>
      h.bind (h.outb (by decide) _) fun _ => h.bind h.delay fun _ => h.bind hbusy fun _ => h.pure ()
  · exact h.pure ()

theorem lbaWrite (lba : Nat) (count : UInt8) : Within R (ch.lbaWrite lba count) :=
  h.bind (h.outb (by decide) _) fun _ => h.bind (h.outb (by decide) _) fun _ =>
    h.bind (h.outb (by decide) _) fun _ => h.bind (h.outb (by decide) _) fun _ =>
      h.outb (by decide) _

end Covers

namespace CoversData

variable {ch : AtaChannel} {R : Bus → Bus → Prop} (h : CoversData ch R)
include h

theorem readWords (n : Nat) : Within R (ch.readWords n) := by
  have hword : Within R (inw (ch.base + DATA)) := by
    refine ⟨fun ⟨bytes, words, log⟩ => ?_⟩
    cases words with
    | nil => exact h.refl _
    | cons w rest => exact (h.word ⟨bytes, w :: rest, log⟩ w).1
  induction n with
  | zero => exact h.pure []
  | succ n ih => exact h.bind hword fun _ => h.bind ih fun _ => h.pure _

theorem readSector (lba : Nat) : Within R (ch.readSector lba) := by
  refine h.bind h.settle fun _ => h.bind (h.lbaWrite lba 1) fun _ =>
    h.bind (h.outb (by decide) _) fun _ => h.bind (h.poll (by decide) _) fun st => ?_
  split_ifs
  · exact h.bind (h.inb (by decide)) fun _ => h.pure none
  · exact h.bind (h.readWords 256) fun _ => h.bind (h.inb (by decide)) fun _ => h.pure _

theorem sendWords (buf : Sector) : Within R (ch.sendWords buf) := by
  rw [AtaChannel.sendWords]
  generalize 256 = n
  induction n with
  | zero => exact h.pure ()
  | succ n ih => exact h.bind ih fun _ => ⟨fun bus => (h.word bus _).2⟩

theorem writeSector (lba : Nat) (buf : Sector) : Within R (ch.writeSector lba buf) := by
  refine h.bind h.settle fun _ => h.bind (h.lbaWrite lba 1) fun _ =>
    h.bind (h.outb (by decide) _) fun _ => h.bind h.delay fun _ =>
      h.bind (h.poll (by decide) _) fun st => ?_
  split_ifs
  · exact h.pure false
  refine h.bind (h.poll (by decide) _) fun st => ?_
  split_ifs
  · exact h.pure false
  refine h.bind (h.sendWords buf) fun _ => h.bind (h.poll (by decide) _) fun st => ?_
  split_ifs
  · exact h.bind (h.inb (by decide)) fun _ => h.pure true
  · exact h.pure true

end CoversData

/-! ## Ports -/

def Access.port : Access → UInt16
  | .inb port _ | .inw port _ | .outb port _ | .outw port _ => port

/-- All accesses from one state to the other are to registers of the channel. -/
def OnChannel (ch : AtaChannel) (b b' : Bus) : Prop :=
  ∃ new, b'.log = new ++ b.log ∧ ∀ a ∈ new, ∃ off ∈ registers, a.port = ch.base + off

theorem onChannel_access {ch : AtaChannel} {b : Bus} {a : Access} {off : UInt16}
    (hoff : off ∈ registers) (ha : a.port = ch.base + off) : OnChannel ch b (b.after a) :=
  ⟨[a], rfl, fun _ hx => mem_singleton.mp hx ▸ ⟨off, hoff, ha⟩⟩

theorem onChannel_covers (ch : AtaChannel) : CoversData ch (OnChannel ch) where
  refl b := ⟨[], rfl, fun _ h => nomatch h⟩
  trans := by
    rintro b b₁ b₂ ⟨new, hnew, h⟩ ⟨new', hnew', h'⟩
    refine ⟨new' ++ new, by rw [hnew', hnew, append_assoc], fun a ha => ?_⟩
    exact (mem_append.mp ha).elim (h' a) (h a)
  byte b val off hoff := ⟨onChannel_access hoff rfl, onChannel_access hoff rfl⟩
  word b w := ⟨onChannel_access (by decide) rfl, onChannel_access (by decide) rfl⟩

/-- **A transfer stays on the ports of its channel**, whatever the drive answers, and also while it
has not come back. -/
theorem transfers_on_channel (ch : AtaChannel) (lba : Nat) (buf : Sector) (bus : Bus) :
    (ch.readSector lba bus).Leaves (OnChannel ch bus) ∧
      (ch.writeSector lba buf bus).Leaves (OnChannel ch bus) :=
  have h := onChannel_covers ch
  ⟨(h.readSector lba).leaves bus, (h.writeSector lba buf).leaves bus⟩

/-! ## Addresses -/

def AtaChannel.new (base : UInt16) (master : Bool) : AtaChannel :=
  ⟨base, if master then 0xA0 else 0xB0, 0⟩

/-- **The registers hold the number of the sector** in 28 bits, beside the drive and the mode. -/
theorem lbaWrite_addresses (base : UInt16) (master : Bool) (lba : Nat) (count : UInt8) (bus : Bus) :
    ∃ lo mid hi top : UInt8,
      (AtaChannel.new base master).lbaWrite lba count bus = .ok () ⟨bus.bytes, bus.words,
        .outb (base + DRIVE) top :: .outb (base + LBA_HI) hi :: .outb (base + LBA_MID) mid ::
          .outb (base + LBA_LO) lo :: .outb (base + SECTOR_COUNT) count :: bus.log⟩ ∧
      lo.toNat + 2 ^ 8 * mid.toNat + 2 ^ 16 * hi.toNat + 2 ^ 24 * (top &&& 0x0F).toNat =
        lba % 2 ^ 28 ∧ top &&& LBA_BIT = LBA_BIT ∧ (top &&& 0x10 = 0 ↔ master = true) := by
  have hall : ∀ n < 16, ∀ m : Bool, let top := (if m then 0xA0 else 0xB0) ||| LBA_BIT ||| .ofNat n
      (top &&& 0x0F).toNat = n ∧ top &&& LBA_BIT = LBA_BIT ∧ (top &&& 0x10 = 0 ↔ m = true) := by
    decide
  have hbyte (n : Nat) : n &&& 0xFF = n % 256 := Nat.and_two_pow_sub_one_eq_mod n 8
  have hfour (n : Nat) : n &&& 0x0F = n % 16 := Nat.and_two_pow_sub_one_eq_mod n 4
  obtain ⟨hsector, hmode⟩ := hall (lba >>> 24 &&& 0x0F) (by rw [hfour]; omega) master
  refine ⟨_, _, _, _, rfl, (congrArg (_ + 2 ^ 24 * ·) hsector).trans ?_, hmode⟩
  simp only [hbyte, hfour, UInt8.toNat_ofNat', Nat.shiftRight_eq_div_pow]
  omega

end PlanckOS.Ata
