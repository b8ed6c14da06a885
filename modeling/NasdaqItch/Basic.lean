import Mathlib.Algebra.Ring.Nat
import Mathlib.Data.UInt

/-!
# Machine integers, faults and time

Fixed-width integers are Lean's `UIntN`, which wrap as the C++ ones do; `char` is a byte.

A call that throws, and an `assert` that fails where asserts are compiled in, ends the program:
both are a `Fault`. The time functions follow `src/utils/time_utils.cpp`, with the globals they
read as arguments.
-/

namespace NasdaqItch

/-- `UINT32_MAX`. -/
def uint32Max : UInt32 := 0xFFFFFFFF

/-- `UINT64_MAX`. -/
def uint64Max : UInt64 := 0xFFFFFFFFFFFFFFFF

/-- A `std::string`, or any run of bytes. -/
abbrev Bytes := List UInt8

/-- The two ways a step of the program can end it. -/
inductive Fault
  /-- An `assert` fired. -/
  | assertionFailed
  /-- `std::out_of_range`, from `at` on a map or an array. -/
  | outOfRange
  deriving DecidableEq, Repr

/-! ## Periods -/

def nanosecondsPerHour : UInt64 := 3600000000000

abbrev numberOfPeriodsPerDay : Nat := 7

/-- 9:00. -/
def startOfFirstPeriod : UInt64 := 32400000000000

/-- The end of the last period, 16:00. -/
def endOfLastPeriod : UInt64 := 57600000000000

/-- An index that `std::array<_, NUMBER_OF_PERIODS_PER_DAY>` accepts. -/
abbrev Period := Fin numberOfPeriodsPerDay

/-- The `floor` of the source is taken of a quotient of integers; the conversion to `uint8_t`
keeps the low byte. -/
def getCurrentPeriodFromTimestamp (timestamp : UInt64) : UInt8 :=
  ((timestamp - startOfFirstPeriod) / nanosecondsPerHour).toUInt8

def isAfterHours (marketCloseTimestamp timestamp : UInt64) : Bool :=
  timestamp > marketCloseTimestamp

/-- The bounds check of `std::array::at`. -/
def periodAt (period : UInt8) : Except Fault Period :=
  if h : period.toNat < numberOfPeriodsPerDay then .ok ⟨period.toNat, h⟩ else .error .outOfRange

/-- The value `currentPeriod` takes when a header with this timestamp comes in. -/
def processHeaderTimestamp (currentPeriod : UInt8) (timestamp : UInt64) : UInt8 :=
  let periodOfThisMessage := getCurrentPeriodFromTimestamp timestamp
  if periodOfThisMessage ≠ currentPeriod then
    -- Outside the seven periods the counter stays where it is.
    if periodOfThisMessage.toNat < numberOfPeriodsPerDay then periodOfThisMessage
    else currentPeriod
  else currentPeriod

@[simp] theorem periodAt_eq_ok {p : UInt8} {k : Period} : periodAt p = .ok k ↔ p.toNat = k := by
  unfold periodAt
  split_ifs with h
  · simp [Fin.ext_iff]
  · constructor
    · simp
    · intro hk
      exact absurd k.isLt (hk ▸ h)

theorem processHeaderTimestamp_eq (p : UInt8) (t : UInt64) :
    processHeaderTimestamp p t =
      if (getCurrentPeriodFromTimestamp t).toNat < numberOfPeriodsPerDay
      then getCurrentPeriodFromTimestamp t else p := by
  simp only [processHeaderTimestamp]
  split_ifs with h₁ h₂ <;> simp_all

theorem processHeaderTimestamp_lt {p : UInt8} (h : p.toNat < numberOfPeriodsPerDay) (t : UInt64) :
    (processHeaderTimestamp p t).toNat < numberOfPeriodsPerDay := by
  rw [processHeaderTimestamp_eq]
  split_ifs with ht
  · exact ht
  · exact h

/-- The period as a number: hours since 9:00, in wrapping 64-bit arithmetic, cut to a byte. -/
theorem getCurrentPeriodFromTimestamp_toNat (t : UInt64) :
    (getCurrentPeriodFromTimestamp t).toNat =
      (2 ^ 64 - 32400000000000 + t.toNat) % 2 ^ 64 / 3600000000000 % 256 := by
  simp [getCurrentPeriodFromTimestamp, startOfFirstPeriod, nanosecondsPerHour, UInt64.toNat_sub]

/-- Before 9:00 the wrapped difference never aliases to one of the day's periods. -/
theorem period_of_lt_start {t : UInt64} (h : t < startOfFirstPeriod) :
    ¬ (getCurrentPeriodFromTimestamp t).toNat < numberOfPeriodsPerDay := by
  have hlt : t.toNat < 32400000000000 := UInt64.lt_iff_toNat_lt.1 h
  rw [getCurrentPeriodFromTimestamp_toNat, numberOfPeriodsPerDay]
  omega

theorem period_of_inHours {t : UInt64} (h : startOfFirstPeriod ≤ t) (h' : t < endOfLastPeriod) :
    (getCurrentPeriodFromTimestamp t).toNat < numberOfPeriodsPerDay := by
  have hle : 32400000000000 ≤ t.toNat := UInt64.le_iff_toNat_le.1 h
  have hlt : t.toNat < 57600000000000 := UInt64.lt_iff_toNat_lt.1 h'
  rw [getCurrentPeriodFromTimestamp_toNat, numberOfPeriodsPerDay]
  omega

/-- **When a timestamp falls in one of the day's periods.** Timestamps are six bytes wide. -/
theorem period_lt_iff {t : UInt64} (h48 : t.toNat < 2 ^ 48) :
    (getCurrentPeriodFromTimestamp t).toNat < numberOfPeriodsPerDay ↔
      startOfFirstPeriod ≤ t ∧ t < endOfLastPeriod := by
  constructor
  · intro h
    have hle : startOfFirstPeriod ≤ t := by
      by_contra hlt
      exact period_of_lt_start (UInt64.not_le.1 hlt) h
    refine ⟨hle, UInt64.lt_iff_toNat_lt.2 ?_⟩
    have hle' : 32400000000000 ≤ t.toNat := UInt64.le_iff_toNat_le.1 hle
    rw [getCurrentPeriodFromTimestamp_toNat, numberOfPeriodsPerDay] at h
    show t.toNat < 57600000000000
    omega
  · rintro ⟨hle, hlt⟩
    exact period_of_inHours hle hlt

end NasdaqItch
