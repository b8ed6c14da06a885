import Mathlib.Data.Rat.Floor
import NasdaqItch.Lib.Rounding
import NasdaqItch.VWAPManager

/-!
# The typical price

`getTypicalPrice` is meant to be the mean of high, low and close, rounded. The three are added in
32 bits and divided as integers before `std::round` sees the quotient, so the sum may wrap, and
what is returned is rounded down. It is the rounded mean exactly if the sum fits and the remainder
is not 2 (`typicalPrice_rounded_iff`).
-/

namespace NasdaqItch

open Rounding

namespace VWAPFormula

/-- The sum of the three prices, as a number. -/
def priceSum (data : VWAPFormula) : Nat :=
  data.high.toNat + data.low.toNat + data.close.toNat

/-- The typical price is the mean of the three prices, rounded to the nearest integer. -/
structure TypicalPriceRounded (data : VWAPFormula) : Prop where
  /-- The sum does not wrap. -/
  sum : (data.high + data.low + data.close).toNat = data.priceSum
  nearest : (data.getTypicalPrice.toNat : ℤ) = round ((data.priceSum : ℚ) / (3 : ℕ))
  low_le : data.low ≤ data.getTypicalPrice
  le_high : data.getTypicalPrice ≤ data.high

variable {data : VWAPFormula}

theorem sum_toNat (data : VWAPFormula) :
    (data.high + data.low + data.close).toNat = data.priceSum % 2 ^ 32 := by
  rw [UInt32.toNat_add, UInt32.toNat_add, priceSum]
  omega

theorem getTypicalPrice_toNat (data : VWAPFormula) :
    data.getTypicalPrice.toNat = data.priceSum % 2 ^ 32 / 3 := by
  rw [getTypicalPrice, UInt32.toNat_div, sum_toNat]
  rfl

theorem getTypicalPrice_of_fits (h : data.priceSum < 2 ^ 32) :
    data.getTypicalPrice.toNat = data.priceSum / 3 := by
  rw [getTypicalPrice_toNat, Nat.mod_eq_of_lt h]

theorem typicalPrice_between (hlow : data.low ≤ data.close) (hhigh : data.close ≤ data.high)
    (h : data.priceSum < 2 ^ 32) :
    data.low ≤ data.getTypicalPrice ∧ data.getTypicalPrice ≤ data.high := by
  have hlow := UInt32.le_iff_toNat_le.1 hlow
  have hhigh := UInt32.le_iff_toNat_le.1 hhigh
  rw [UInt32.le_iff_toNat_le, UInt32.le_iff_toNat_le, getTypicalPrice_of_fits h, priceSum]
  omega

/-- The value that is returned is right only if the sum does not wrap. -/
theorem getTypicalPrice_eq_round_iff (data : VWAPFormula) :
    (data.getTypicalPrice.toNat : ℤ) = round ((data.priceSum : ℚ) / (3 : ℕ)) ↔
      data.priceSum < 2 ^ 32 ∧ data.priceSum % 3 ≠ 2 := by
  have hround : round ((data.priceSum : ℚ) / (3 : ℕ)) = ((data.priceSum / 3 : ℕ) : ℤ) ↔
      2 * (data.priceSum % 3) < 3 := round_div_eq_iff (by decide)
  constructor
  · intro h
    have hfits : data.priceSum < 2 ^ 32 := by
      by_contra hwraps
      have hle : ((data.priceSum / 3 : ℕ) : ℤ) ≤ round ((data.priceSum : ℚ) / (3 : ℕ)) :=
        div_le_round_div _ _
      rw [← h, getTypicalPrice_toNat] at hle
      omega
    rw [getTypicalPrice_of_fits hfits] at h
    have hremainder := hround.1 h.symm
    exact ⟨hfits, by omega⟩
  · intro h
    rw [getTypicalPrice_of_fits h.1]
    exact (hround.2 (by omega)).symm

end VWAPFormula

open VWAPFormula

/-- **When the typical price is the rounded mean**: exactly if the sum of the three prices fits in
32 bits and leaves no remainder of 2. -/
theorem typicalPrice_rounded_iff {data : VWAPFormula} (hlow : data.low ≤ data.close)
    (hhigh : data.close ≤ data.high) :
    data.TypicalPriceRounded ↔ data.priceSum < 2 ^ 32 ∧ data.priceSum % 3 ≠ 2 := by
  constructor
  · intro h
    exact (getTypicalPrice_eq_round_iff data).1 h.nearest
  · intro h
    have hsum : (data.high + data.low + data.close).toNat = data.priceSum := by
      rw [sum_toNat, Nat.mod_eq_of_lt h.1]
    obtain ⟨hlowest, hhighest⟩ := typicalPrice_between hlow hhigh h.1
    exact ⟨hsum, (getTypicalPrice_eq_round_iff data).2 h, hlowest, hhighest⟩

/-- Prices of 100, 101 and 102. -/
theorem typicalPrice_rounded_exact :
    ({ high := 102, low := 100, close := 101 } : VWAPFormula).TypicalPriceRounded :=
  (typicalPrice_rounded_iff (by decide) (by decide)).2 (by decide)

/-- **Rounded down.** Prices of 100, 101 and 101 have a mean of 100.67, and 100 is returned; three
prices of 200000 dollars have a sum that wraps, and what is returned is below all of them. -/
theorem typicalPrice_not_rounded :
    let data : VWAPFormula := { high := 101, low := 100, close := 101 }
    let expensive : VWAPFormula := { high := 2000000000, low := 2000000000, close := 2000000000 }
    (data.low ≤ data.close ∧ data.close ≤ data.high ∧ data.getTypicalPrice = 100 ∧
      round ((data.priceSum : ℚ) / (3 : ℕ)) = 101 ∧ ¬ data.TypicalPriceRounded) ∧
    expensive.low ≤ expensive.close ∧ expensive.close ≤ expensive.high ∧
      expensive.getTypicalPrice < expensive.low := by
  intro data expensive
  have hmean : round ((data.priceSum : ℚ) / (3 : ℕ)) = 101 := by
    have hsum : data.priceSum = 302 := rfl
    rw [hsum, round_eq_iff]
    norm_num
  refine ⟨⟨by decide, by decide, by decide, hmean, ?_⟩, by decide, by decide, by decide⟩
  intro h
  have hnearest := h.nearest
  rw [hmean] at hnearest
  exact absurd hnearest (by decide)

end NasdaqItch
