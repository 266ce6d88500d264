import Mathlib.Tactic

/-!
# Reading the clock

`rtc.rs` reads the date one register at a time while the clock runs, and keeps a round when the
seconds are the same before and after it. `readDatetime_shown` says that the date returned was shown
by the clock, with all its fields at one time.
-/

set_option autoImplicit false

namespace PlanckOS.Rtc

def RTC_SECONDS : UInt8 := 0x00
def RTC_MINUTES : UInt8 := 0x02
def RTC_HOURS : UInt8 := 0x04
def RTC_DAY : UInt8 := 0x07
def RTC_MONTH : UInt8 := 0x08
def RTC_YEAR : UInt8 := 0x09
def RTC_STAT_B : UInt8 := 0x0B
def RTC_BCD : UInt8 := 0x04

structure RtcDate where
  year : UInt16
  month : UInt8
  day : UInt8
  hours : UInt8
  minutes : UInt8
  seconds : UInt8
  deriving DecidableEq, Repr

/-- The registers over time: what the `i`-th read finds in each of them. -/
abbrev Cmos := Nat → UInt8 → UInt8

def bcdToBin (bcd : UInt8) : UInt8 := (bcd &&& 0x0F : UInt8) + (bcd >>> 4) * 10

def century (year : UInt8) : UInt16 :=
  let y := year.toUInt16
  if y < 80 then y + 2000 else y + 1900

/-- The date of the registers read, in either mode. -/
def rtcDate (isBcd : Bool) (year month day hours minutes sec : UInt8) : RtcDate :=
  if isBcd then
    ⟨century (bcdToBin year), bcdToBin month, bcdToBin day, bcdToBin hours, bcdToBin minutes,
      bcdToBin sec⟩
  else ⟨century year, month, day, hours, minutes, sec⟩

section Read

variable (cmos : Cmos) (isBcd : Bool)

/-- The state is the number of reads so far. -/
def cmosRead (reg : UInt8) : StateM Nat UInt8 := fun i => (cmos i reg, i + 1)

/-- The six reads of a round: the seconds as they were read, and the date. -/
def readFields : StateM Nat (UInt8 × RtcDate) := do
  let sec ← cmosRead cmos RTC_SECONDS
  let minutes ← cmosRead cmos RTC_MINUTES
  let hours ← cmosRead cmos RTC_HOURS
  let day ← cmosRead cmos RTC_DAY
  let month ← cmosRead cmos RTC_MONTH
  let year ← cmosRead cmos RTC_YEAR
  return (sec, rtcDate isBcd year month day hours minutes sec)

/-- A round of the loop. -/
def readRound : StateM Nat (Option RtcDate) := do
  let (sec1, date) ← readFields cmos isBcd
  let sec2 ← cmosRead cmos RTC_SECONDS
  return if sec1 == sec2 then some date else none

/-- The rounds left. After the last one the registers are read once more, unchecked. -/
def readRounds : Nat → StateM Nat RtcDate
  | 0 => do
    let (_, date) ← readFields cmos isBcd
    return date
  | n + 1 => do
    match ← readRound cmos isBcd with
    | some date => return date
    | none => readRounds n

def readDatetime : StateM Nat RtcDate := do
  let statB ← cmosRead cmos RTC_STAT_B
  readRounds cmos (statB &&& RTC_BCD == 0) 100

theorem readRound_eq (i : Nat) : readRound cmos isBcd i =
    (if cmos i RTC_SECONDS == cmos (i + 6) RTC_SECONDS then
      some (rtcDate isBcd (cmos (i + 5) RTC_YEAR) (cmos (i + 4) RTC_MONTH) (cmos (i + 3) RTC_DAY)
        (cmos (i + 2) RTC_HOURS) (cmos (i + 1) RTC_MINUTES) (cmos i RTC_SECONDS))
      else none, i + 7) := rfl

theorem readRounds_succ (n i : Nat) : readRounds cmos isBcd (n + 1) i =
    (match (readRound cmos isBcd i).1 with
      | some date => pure date
      | none => readRounds cmos isBcd n : StateM Nat RtcDate) (readRound cmos isBcd i).2 := rfl

end Read

/-! ## A running clock -/

/-- A number below 100 as the clock stores it. -/
def encode (bcd : Bool) (n : UInt8) : UInt8 := if bcd then n / 10 * 16 + n % 10 else n

/-- What the registers hold while the clock shows a date. -/
def registers (bcd : Bool) (d : RtcDate) : List (UInt8 × UInt8) :=
  [(RTC_SECONDS, encode bcd d.seconds), (RTC_MINUTES, encode bcd d.minutes),
    (RTC_HOURS, encode bcd d.hours), (RTC_DAY, encode bcd d.day), (RTC_MONTH, encode bcd d.month),
    (RTC_YEAR, encode bcd (d.year % 100).toUInt8)]

/-- A clock in 24-hour mode that shows `date i` at the `i`-th read. A change of the date changes the
seconds, and there are 13 reads or more from one change to the next. -/
structure Clock where
  cmos : Cmos
  bcd : Bool
  date : Nat → RtcDate
  status : ∀ i, (cmos i RTC_STAT_B &&& RTC_BCD == 0) = bcd
  shows : ∀ i, ∀ r ∈ registers bcd (date i), cmos i r.1 = r.2
  fields : ∀ i, ∀ n ∈ [(date i).month, (date i).day, (date i).hours, (date i).minutes,
    (date i).seconds], n < 100
  years : ∀ i, 1980 ≤ (date i).year ∧ (date i).year < 2080
  tick : ∀ i, date (i + 1) ≠ date i → (date (i + 1)).seconds ≠ (date i).seconds
  rare : ∀ i j, i < j → j < i + 13 → date (i + 1) ≠ date i → date (j + 1) = date j

theorem bcdToBin_encode {n : UInt8} (h : n < 100) : bcdToBin (encode true n) = n := by
  have hall : ∀ n < 100, bcdToBin (encode true (.ofNat n)) = .ofNat n := by decide +kernel
  simpa using hall n.toNat h

theorem century_year {y : UInt16} (h : 1980 ≤ y ∧ y < 2080) :
    (y % 100).toUInt8 < 100 ∧ century (y % 100).toUInt8 = y := by
  have hall : ∀ k < 100, (UInt16.ofNat (1980 + k) % 100).toUInt8 < 100 ∧
      century (UInt16.ofNat (1980 + k) % 100).toUInt8 = .ofNat (1980 + k) := by decide +kernel
  obtain ⟨k, hk⟩ := Nat.exists_eq_add_of_le (show 1980 ≤ y.toNat from h.1)
  have hy := hall k (by have : y.toNat < 2080 := h.2; omega)
  rwa [← hk, UInt16.ofNat_toNat] at hy

/-- Without a change between them, reads find one date. -/
theorem steady {date : Nat → RtcDate} {a b i : Nat} (hi : a ≤ i) (hib : i ≤ b)
    (hno : ∀ k, a ≤ k → k < b → date (k + 1) = date k) : date i = date a := by
  induction i, hi using Nat.le_induction with
  | base => rfl
  | succ k hk ih => rw [hno k hk hib, ih (by omega)]

namespace Clock

variable (c : Clock) {i k : Nat}

theorem rtcDate_eq : rtcDate c.bcd (c.cmos i RTC_YEAR) (c.cmos i RTC_MONTH) (c.cmos i RTC_DAY)
    (c.cmos i RTC_HOURS) (c.cmos i RTC_MINUTES) (c.cmos i RTC_SECONDS) = c.date i := by
  have hr := c.shows i
  have hf := c.fields i
  obtain ⟨hy, hyear⟩ := century_year (c.years i)
  simp only [registers, List.forall_mem_cons] at hr hf
  obtain ⟨hsec, hmin, hhour, hday, hmonth, hyr, -⟩ := hr
  rw [hsec, hmin, hhour, hday, hmonth, hyr, rtcDate]
  cases c.bcd with
  | false => simp [encode, hyear]
  | true => simp [bcdToBin_encode, hf, hy, hyear]

/-- A round without a change reads the date. -/
theorem round_steady (hno : ∀ k, i ≤ k → k < i + 6 → c.date (k + 1) = c.date k) :
    readRound c.cmos c.bcd i = (some (c.date i), i + 7) := by
  have hsame (k : Nat) (hk : k ≤ 6) : ∀ r ∈ registers c.bcd (c.date i),
      c.cmos (i + k) r.1 = c.cmos i r.1 := by
    intro r hr
    rw [c.shows i r hr]
    apply c.shows
    rwa [steady (Nat.le_add_right i k) (by omega) hno]
  simp only [registers, List.forall_mem_cons] at hsame
  rw [readRound_eq, (hsame 6 (by decide)).1, (hsame 5 (by decide)).2.2.2.2.2.1,
    (hsame 4 (by decide)).2.2.2.2.1, (hsame 3 (by decide)).2.2.2.1, (hsame 2 (by decide)).2.2.1,
    (hsame 1 (by decide)).2.1, c.rtcDate_eq, beq_self_eq_true, if_pos rfl]

/-- A round with a change in it is dropped. -/
theorem round_tick (hk : i ≤ k) (hki : k < i + 6) (htick : c.date (k + 1) ≠ c.date k) :
    readRound c.cmos c.bcd i = (none, i + 7) := by
  have hsec (i : Nat) : (c.date i).seconds =
      if c.bcd then bcdToBin (c.cmos i RTC_SECONDS) else c.cmos i RTC_SECONDS := by
    rw [← c.rtcDate_eq (i := i), rtcDate]
    split <;> rfl
  have hfirst : c.date k = c.date i := steady hk le_rfl fun j hj hjk => by
    by_contra hne
    exact htick (c.rare j k hjk (by omega) hne)
  have hlast : c.date (i + 6) = c.date (k + 1) := steady hki le_rfl fun j hj hji =>
    c.rare k j hj (by omega) htick
  have hne : c.cmos i RTC_SECONDS ≠ c.cmos (i + 6) RTC_SECONDS := by
    intro heq
    apply c.tick k htick
    rw [hfirst, ← hlast, hsec, hsec, heq]
  rw [readRound_eq, beq_false_of_ne hne, if_neg Bool.false_ne_true]

end Clock

/-- **The date was shown.** `read_datetime` ends within two rounds, and the date it returns is the
one that the clock showed when the last round began: no field belongs to another time. -/
theorem readDatetime_shown (c : Clock) (i : Nat) :
    ∃ k, i < k ∧ k ≤ i + 8 ∧ readDatetime c.cmos i = (c.date k, k + 7) := by
  have hstart : readDatetime c.cmos i = readRounds c.cmos c.bcd 100 (i + 1) := by
    rw [← c.status i]
    rfl
  by_cases hno : ∀ k, i + 1 ≤ k → k < i + 1 + 6 → c.date (k + 1) = c.date k
  · refine ⟨i + 1, by omega, by omega, ?_⟩
    rw [hstart, readRounds_succ, c.round_steady hno]
    rfl
  · -- The change is in the first round, and the second one is free of changes.
    push Not at hno
    obtain ⟨k, hk, hki, htick⟩ := hno
    have hno (j : Nat) (hj : i + 8 ≤ j) (hji : j < i + 8 + 6) : c.date (j + 1) = c.date j :=
      c.rare k j (by omega) (by omega) htick
    have hfirst : readRounds c.cmos c.bcd 100 (i + 1) = readRounds c.cmos c.bcd 99 (i + 8) := by
      rw [readRounds_succ, c.round_tick hk hki htick]
    refine ⟨i + 8, by omega, le_rfl, ?_⟩
    rw [hstart, hfirst, readRounds_succ, c.round_steady hno]
    rfl

/-- The year changes before the fourth read. -/
def turnOfYear (i : Nat) : RtcDate :=
  if i < 3 then ⟨2025, 12, 31, 23, 59, 59⟩ else ⟨2026, 1, 1, 0, 0, 0⟩

theorem turnOfYear_ne {i : Nat} (h : turnOfYear (i + 1) ≠ turnOfYear i) : i = 2 := by
  by_contra hne
  exact h (if_congr (by omega) rfl rfl)

def newYear : Clock where
  cmos i reg := ((registers true (turnOfYear i)).lookup reg).getD 0
  bcd := true
  date := turnOfYear
  status i := by rw [turnOfYear]; split <;> decide
  shows i := by rw [turnOfYear]; split <;> simp [registers] <;> decide
  fields i := by rw [turnOfYear]; split <;> simp
  years i := by rw [turnOfYear]; split <;> decide
  tick i h := by rw [turnOfYear_ne h]; decide
  rare i j hij _ h := by
    have hi := turnOfYear_ne h
    exact if_congr (by omega) rfl rfl

/-- The change is in the first round, and the second one reads the date behind it. -/
theorem readDatetime_shown_newYear : readDatetime newYear.cmos 0 = (newYear.date 8, 15) ∧
    newYear.date 8 = ⟨2026, 1, 1, 0, 0, 0⟩ := by
  obtain ⟨k, -, -, hrun⟩ := readDatetime_shown newYear 0
  have hend : k + 7 = 15 := (congrArg Prod.snd hrun).symm
  obtain rfl : k = 8 := Nat.add_right_cancel hend
  exact ⟨hrun, rfl⟩

end PlanckOS.Rtc
