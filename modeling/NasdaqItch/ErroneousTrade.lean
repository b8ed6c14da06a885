import Mathlib.Data.Rat.Floor
import NasdaqItch.Lib.Rounding
import NasdaqItch.VWAPManager

/-!
# The erroneous-trade heuristic

A trade is withheld if its price is at or outside a numerical threshold around the last sale
price: 10, 5 or 3 percent of it, by the band that the price falls in. The two bounds are truncated
before the comparison, and the band is that of the price under test.

* `flag_exact_iff`: the truncation matters for the upper bound only, where it withholds the prices
  less than one below it.
* `flag_monotone_iff`: below the last sale price the threshold jumps where the band changes, so a
  price can be withheld while one further down, in the next band, is not.
-/

namespace NasdaqItch

open Rounding

/-! ## The threshold -/

theorem topOf10PercentBand_toNat : topOf10PercentBand.toNat = 250000 := rfl

theorem topOf5PercentBand_toNat : topOf5PercentBand.toNat = 500000 := rfl

/-- The threshold of the band a price falls in, in percent of the last sale price. -/
def thresholdPercent (price : UInt32) : Nat :=
  if price < topOf10PercentBand then 10 else if price < topOf5PercentBand then 5 else 3

/-- The same as a fraction. -/
def numericalThreshold (price : UInt32) : ℚ := thresholdPercent price / (100 : ℕ)

/-- At or outside the threshold, in exact numbers. -/
def OutsideThreshold (price lastPrice : UInt32) : Prop :=
  (price.toNat : ℚ) ≤ lastPrice.toNat * (1 - numericalThreshold price) ∨
    lastPrice.toNat * (1 + numericalThreshold price) ≤ (price.toNat : ℚ)

/-- The larger of the products, with 1.1, is below `2 ^ 32`. -/
def ProductsFit (lastPrice : UInt32) : Prop := (lastPrice.toNat : ℚ) * (11 / 10) < 2 ^ 32

section Flag

variable {price lastPrice p q : UInt32}

theorem productsFit_iff : ProductsFit lastPrice ↔ lastPrice.toNat * 110 < 2 ^ 32 * 100 := by
  have hcast : ProductsFit lastPrice ↔ (lastPrice.toNat : ℚ) * 110 < 2 ^ 32 * 100 := by
    unfold ProductsFit
    constructor <;> intro h <;> linarith
  rw [hcast]
  exact_mod_cast Iff.rfl

instance : DecidablePred ProductsFit := fun _ => decidable_of_iff _ productsFit_iff.symm

theorem thresholdPercent_le (price : UInt32) : thresholdPercent price ≤ 10 := by
  unfold thresholdPercent
  split_ifs <;> decide

theorem thresholdPercent_antitone (h : p ≤ q) : thresholdPercent q ≤ thresholdPercent p := by
  unfold thresholdPercent
  by_cases hq : q < topOf10PercentBand
  · rw [if_pos hq, if_pos (UInt32.lt_of_le_of_lt h hq)]
  · rw [if_neg hq]
    by_cases hq' : q < topOf5PercentBand
    · rw [if_pos hq', if_pos (UInt32.lt_of_le_of_lt h hq')]
      split_ifs <;> decide
    · rw [if_neg hq']
      split_ifs <;> decide

theorem priceBand_eq (price : UInt32) :
    priceBand price = (100 - thresholdPercent price, 100 + thresholdPercent price) := by
  unfold priceBand thresholdPercent
  split_ifs <;> rfl

/-- The flag in numbers: both products fit, and the conversions to 32 bits keep them. -/
theorem flag_iff (hfits : ProductsFit lastPrice) :
    flagOrderOrTradeAsErroneousCandidate price lastPrice = true ↔
      price.toNat ≤ lastPrice.toNat * (100 - thresholdPercent price) / 100 ∨
        lastPrice.toNat * (100 + thresholdPercent price) / 100 ≤ price.toNat := by
  have hlt := productsFit_iff.1 hfits
  have hle := thresholdPercent_le price
  have hfloor : lastPrice.toNat * (100 - thresholdPercent price) ≤ lastPrice.toNat * 110 :=
    Nat.mul_le_mul_left _ (by omega)
  have hceiling : lastPrice.toNat * (100 + thresholdPercent price) ≤ lastPrice.toNat * 110 :=
    Nat.mul_le_mul_left _ (by omega)
  simp only [flagOrderOrTradeAsErroneousCandidate, priceBand_eq, Bool.or_eq_true,
    decide_eq_true_eq, ge_iff_le, UInt32.le_iff_toNat_le, UInt32.toNat_ofNat']
  rw [Nat.mod_eq_of_lt (by omega), Nat.mod_eq_of_lt (by omega)]

theorem lower_eq : (lastPrice.toNat : ℚ) * (1 - numericalThreshold price) =
    ((lastPrice.toNat * (100 - thresholdPercent price) : ℕ) : ℚ) / (100 : ℕ) := by
  have hle : thresholdPercent price ≤ 100 := (thresholdPercent_le price).trans (by decide)
  rw [numericalThreshold, Nat.cast_mul, Nat.cast_sub hle]
  ring

theorem upper_eq : (lastPrice.toNat : ℚ) * (1 + numericalThreshold price) =
    ((lastPrice.toNat * (100 + thresholdPercent price) : ℕ) : ℚ) / (100 : ℕ) := by
  rw [numericalThreshold, Nat.cast_mul, Nat.cast_add]
  ring

theorem flag_iff_floor (hfits : ProductsFit lastPrice) :
    flagOrderOrTradeAsErroneousCandidate price lastPrice = true ↔
      price.toNat ≤ ⌊(lastPrice.toNat : ℚ) * (1 - numericalThreshold price)⌋₊ ∨
        ⌊(lastPrice.toNat : ℚ) * (1 + numericalThreshold price)⌋₊ ≤ price.toNat := by
  rw [flag_iff hfits, lower_eq, upper_eq, Nat.floor_div_eq_div, Nat.floor_div_eq_div]

theorem outsideThreshold_iff : OutsideThreshold price lastPrice ↔
    price.toNat * 100 ≤ lastPrice.toNat * (100 - thresholdPercent price) ∨
      lastPrice.toNat * (100 + thresholdPercent price) ≤ price.toNat * 100 := by
  have hpos : (0 : ℚ) < (100 : ℕ) := by norm_num
  rw [OutsideThreshold, lower_eq, upper_eq, le_div_iff₀ hpos, div_le_iff₀ hpos]
  exact_mod_cast Iff.rfl

instance : Decidable (OutsideThreshold price lastPrice) :=
  decidable_of_iff _ outsideThreshold_iff.symm

/-! ## Truncation -/

/-- Less than one below the upper bound. -/
def JustBelowUpper (price lastPrice : UInt32) : Prop :=
  lastPrice.toNat * (1 + numericalThreshold price) - 1 < (price.toNat : ℚ) ∧
    (price.toNat : ℚ) < lastPrice.toNat * (1 + numericalThreshold price)

theorem justBelowUpper_iff : JustBelowUpper price lastPrice ↔
    lastPrice.toNat * (100 + thresholdPercent price) < (price.toNat + 1) * 100 ∧
      price.toNat * 100 < lastPrice.toNat * (100 + thresholdPercent price) := by
  have hpos : (0 : ℚ) < (100 : ℕ) := by norm_num
  rw [JustBelowUpper, sub_lt_iff_lt_add, upper_eq, div_lt_iff₀ hpos, lt_div_iff₀ hpos]
  exact_mod_cast Iff.rfl

instance : Decidable (JustBelowUpper price lastPrice) :=
  decidable_of_iff _ justBelowUpper_iff.symm

theorem numericalThreshold_pos (price : UInt32) : 0 < numericalThreshold price := by
  unfold numericalThreshold thresholdPercent
  split_ifs <;> norm_num

theorem numericalThreshold_le_one (price : UInt32) : numericalThreshold price ≤ 1 := by
  unfold numericalThreshold thresholdPercent
  split_ifs <;> norm_num

theorem JustBelowUpper.lower_lt (h : JustBelowUpper price lastPrice) (hlast : lastPrice ≠ 0) :
    (lastPrice.toNat : ℚ) * (1 - numericalThreshold price) < price.toNat := by
  have hpos : (0 : ℚ) < lastPrice.toNat :=
    Nat.cast_pos.2 (Nat.pos_of_ne_zero fun hzero => hlast (UInt32.toNat.inj hzero))
  have hstep : (0 : ℚ) < lastPrice.toNat * numericalThreshold price :=
    mul_pos hpos (numericalThreshold_pos price)
  have habove : (lastPrice.toNat : ℚ) < price.toNat + 1 := by
    have hnear := h.1
    linarith
  have hle : lastPrice.toNat ≤ price.toNat := Nat.lt_succ_iff.1 (by exact_mod_cast habove)
  have hcast : (lastPrice.toNat : ℚ) ≤ price.toNat := Nat.cast_le.2 hle
  linarith

end Flag

/-- **When the flag uses the exact threshold**: unless the price is less than one below the upper
bound. The flag is then raised although the price is inside the threshold. -/
theorem flag_exact_iff {price lastPrice : UInt32} (hlast : lastPrice ≠ 0)
    (hfits : ProductsFit lastPrice) :
    (flagOrderOrTradeAsErroneousCandidate price lastPrice = true ↔
      OutsideThreshold price lastPrice) ↔ ¬ JustBelowUpper price lastPrice := by
  have hlower : (0 : ℚ) ≤ lastPrice.toNat * (1 - numericalThreshold price) :=
    mul_nonneg (Nat.cast_nonneg _) (sub_nonneg.2 (numericalThreshold_le_one price))
  have hupper : (0 : ℚ) ≤ lastPrice.toNat * (1 + numericalThreshold price) :=
    mul_nonneg (Nat.cast_nonneg _) (add_nonneg zero_le_one (numericalThreshold_pos price).le)
  rw [flag_iff_floor hfits, OutsideThreshold, outside_floor_iff hlower hupper]
  constructor
  · intro h hbelow
    exact h ⟨hbelow.lower_lt hlast, hbelow⟩
  · intro h hinside
    exact h hinside.2

/-- A rise of 20 percent is outside. -/
theorem flag_exact_rise : flagOrderOrTradeAsErroneousCandidate 120 100 = true ↔
    OutsideThreshold 120 100 :=
  (flag_exact_iff (by decide) (by decide)).2 (by decide)

/-- **Withheld inside the threshold.** A price of 262505 after 250005, where the upper bound is
262505.25, and a price of 9 after 9. -/
theorem flag_inside_threshold :
    (flagOrderOrTradeAsErroneousCandidate 262505 250005 = true ∧ ProductsFit 250005 ∧
      ¬ OutsideThreshold 262505 250005) ∧
    flagOrderOrTradeAsErroneousCandidate 9 9 = true ∧ ProductsFit 9 ∧
      ¬ OutsideThreshold 9 9 := by
  decide

section LastPrice

variable {price lastPrice p q : UInt32}

/-- A trade at exactly the last sale price is withheld below a tenth of a cent. -/
theorem flag_at_lastPrice_iff (hfits : ProductsFit lastPrice) :
    flagOrderOrTradeAsErroneousCandidate lastPrice lastPrice = true ↔ lastPrice < 10 := by
  have hten : (10 : UInt32).toNat = 10 := rfl
  rw [flag_iff hfits, UInt32.lt_iff_toNat_lt, hten, thresholdPercent]
  simp only [UInt32.lt_iff_toNat_lt, topOf10PercentBand_toNat]
  split_ifs <;> omega

/-! ## Prices further away -/

/-- On one side of the last sale price, with `q` at least as far away as `p`. -/
def Further (lastPrice p q : UInt32) : Prop :=
  (q ≤ p ∧ p < lastPrice) ∨ (lastPrice < p ∧ p ≤ q)

/-- A cutoff lies between `q` and `p`, which are below the last sale price; `p` is outside the
threshold above the cutoff, and `q` inside the one below it. -/
def BetweenThresholds (lastPrice p q : UInt32) : Prop :=
  (q < topOf10PercentBand ∧ topOf10PercentBand ≤ p ∧ p < topOf5PercentBand ∧
    100 * p.toNat ≤ 95 * lastPrice.toNat ∧ 90 * lastPrice.toNat < 100 * q.toNat) ∨
  (topOf10PercentBand ≤ q ∧ q < topOf5PercentBand ∧ topOf5PercentBand ≤ p ∧
    100 * p.toNat ≤ 97 * lastPrice.toNat ∧ 95 * lastPrice.toNat < 100 * q.toNat)

/-- The last sale prices for which there are such prices. -/
def ThresholdJumps (lastPrice : UInt32) : Prop :=
  (263158 ≤ lastPrice ∧ lastPrice ≤ 277776) ∨ (515464 ≤ lastPrice ∧ lastPrice ≤ 526314)

instance : DecidablePred ThresholdJumps := fun _ => inferInstanceAs (Decidable (_ ∨ _))

theorem flag_below_iff (hfits : ProductsFit lastPrice) (h : price < lastPrice) :
    flagOrderOrTradeAsErroneousCandidate price lastPrice = true ↔
      100 * price.toNat ≤ lastPrice.toNat * (100 - thresholdPercent price) := by
  have hlt := UInt32.lt_iff_toNat_lt.1 h
  have hupper : lastPrice.toNat * 100 ≤ lastPrice.toNat * (100 + thresholdPercent price) :=
    Nat.mul_le_mul_left _ (Nat.le_add_right _ _)
  rw [flag_iff hfits]
  omega

theorem flag_above_iff (hfits : ProductsFit lastPrice) (h : lastPrice < price) :
    flagOrderOrTradeAsErroneousCandidate price lastPrice = true ↔
      lastPrice.toNat * (100 + thresholdPercent price) < 100 * (price.toNat + 1) := by
  have hlt := UInt32.lt_iff_toNat_lt.1 h
  have hlower : lastPrice.toNat * (100 - thresholdPercent price) ≤ lastPrice.toNat * 100 :=
    Nat.mul_le_mul_left _ (Nat.sub_le _ _)
  rw [flag_iff hfits]
  omega

/-- **Above the last sale price** the threshold only shrinks. -/
theorem flag_further_above (hfits : ProductsFit lastPrice) (h : lastPrice < p) (hle : p ≤ q)
    (hflag : flagOrderOrTradeAsErroneousCandidate p lastPrice = true) :
    flagOrderOrTradeAsErroneousCandidate q lastPrice = true := by
  have hthreshold : lastPrice.toNat * (100 + thresholdPercent q) ≤
      lastPrice.toNat * (100 + thresholdPercent p) :=
    Nat.mul_le_mul_left _ (Nat.add_le_add_left (thresholdPercent_antitone hle) _)
  have hleNat := UInt32.le_iff_toNat_le.1 hle
  rw [flag_above_iff hfits h] at hflag
  rw [flag_above_iff hfits (UInt32.lt_of_lt_of_le h hle)]
  omega

/-- **Two prices.** The one further away is flagged with the nearer one, unless the thresholds on
the two sides of a cutoff separate them. -/
theorem flag_further_iff (hfits : ProductsFit lastPrice) (h : Further lastPrice p q) :
    (flagOrderOrTradeAsErroneousCandidate p lastPrice = true →
      flagOrderOrTradeAsErroneousCandidate q lastPrice = true) ↔
      ¬ BetweenThresholds lastPrice p q := by
  rcases h with ⟨hle, hlt⟩ | ⟨hlt, hle⟩
  · have hleNat := UInt32.le_iff_toNat_le.1 hle
    rw [flag_below_iff hfits hlt, flag_below_iff hfits (UInt32.lt_of_le_of_lt hle hlt)]
    simp only [BetweenThresholds, thresholdPercent, UInt32.lt_iff_toNat_lt,
      UInt32.le_iff_toNat_le, topOf10PercentBand_toNat, topOf5PercentBand_toNat]
    split_ifs <;> omega
  · have hltNat := UInt32.lt_iff_toNat_lt.1 hlt
    refine iff_of_true (flag_further_above hfits hlt hle) ?_
    simp only [BetweenThresholds, UInt32.lt_iff_toNat_lt, UInt32.le_iff_toNat_le,
      topOf10PercentBand_toNat, topOf5PercentBand_toNat]
    omega

theorem ThresholdJumps.between (h : ThresholdJumps lastPrice) :
    ∃ p q, Further lastPrice p q ∧ BetweenThresholds lastPrice p q := by
  rcases h with ⟨hlow, hhigh⟩ | ⟨hlow, hhigh⟩
  · have hlowNat : 263158 ≤ lastPrice.toNat := UInt32.le_iff_toNat_le.1 hlow
    have hhighNat : lastPrice.toNat ≤ 277776 := UInt32.le_iff_toNat_le.1 hhigh
    have hbelow : (250000 : UInt32) < lastPrice := UInt32.lt_of_lt_of_le (by decide) hlow
    have hp : (250000 : UInt32).toNat = 250000 := rfl
    have hq : (249999 : UInt32).toNat = 249999 := rfl
    refine ⟨250000, 249999, Or.inl ⟨by decide, hbelow⟩,
      Or.inl ⟨by decide, by decide, by decide, ?_, ?_⟩⟩ <;> omega
  · have hlowNat : 515464 ≤ lastPrice.toNat := UInt32.le_iff_toNat_le.1 hlow
    have hhighNat : lastPrice.toNat ≤ 526314 := UInt32.le_iff_toNat_le.1 hhigh
    have hbelow : (500000 : UInt32) < lastPrice := UInt32.lt_of_lt_of_le (by decide) hlow
    have hp : (500000 : UInt32).toNat = 500000 := rfl
    have hq : (499999 : UInt32).toNat = 499999 := rfl
    refine ⟨500000, 499999, Or.inl ⟨by decide, hbelow⟩,
      Or.inr ⟨by decide, by decide, by decide, ?_, ?_⟩⟩ <;> omega

theorem BetweenThresholds.jumps (h : BetweenThresholds lastPrice p q) :
    ThresholdJumps lastPrice := by
  have hbounds : (263158 : UInt32).toNat = 263158 ∧ (277776 : UInt32).toNat = 277776 ∧
      (515464 : UInt32).toNat = 515464 ∧ (526314 : UInt32).toNat = 526314 := ⟨rfl, rfl, rfl, rfl⟩
  simp only [BetweenThresholds, ThresholdJumps, UInt32.lt_iff_toNat_lt, UInt32.le_iff_toNat_le,
    topOf10PercentBand_toNat, topOf5PercentBand_toNat, hbounds] at *
  omega

end LastPrice

/-- **When the flag is monotone** in the distance from the last sale price. Two prices are
separated exactly between the two thresholds at a cutoff; and there are such prices exactly for a
last sale price at which the threshold jumps. -/
theorem flag_monotone_iff {lastPrice : UInt32} (hfits : ProductsFit lastPrice) :
    (∀ p q, Further lastPrice p q →
      ((flagOrderOrTradeAsErroneousCandidate p lastPrice = true →
        flagOrderOrTradeAsErroneousCandidate q lastPrice = true) ↔
        ¬ BetweenThresholds lastPrice p q)) ∧
    ((∀ p q, Further lastPrice p q →
      flagOrderOrTradeAsErroneousCandidate p lastPrice = true →
        flagOrderOrTradeAsErroneousCandidate q lastPrice = true) ↔ ¬ ThresholdJumps lastPrice) := by
  refine ⟨fun p q h => flag_further_iff hfits h, ?_⟩
  constructor
  · intro hmonotone hjumps
    obtain ⟨p, q, hfurther, hbetween⟩ := hjumps.between
    exact (flag_further_iff hfits hfurther).1 (hmonotone p q hfurther) hbetween
  · intro hsteady p q hfurther
    exact (flag_further_iff hfits hfurther).2 fun hbetween => hsteady hbetween.jumps

/-- After a last sale at 30 dollars, 24.99 is flagged with 25.01. -/
theorem flag_monotone_at_30_dollars :
    flagOrderOrTradeAsErroneousCandidate 249900 300000 = true :=
  (flag_monotone_iff (by decide)).2.2 (by decide) 250100 249900 (Or.inl (by decide)) (by decide)

/-- **A cleared trade.** After a last sale at 52 dollars, a trade at 50 is withheld and one at
49.9999 is not. -/
theorem flag_not_monotone :
    Further 520000 500000 499999 ∧ ProductsFit 520000 ∧
      flagOrderOrTradeAsErroneousCandidate 500000 520000 = true ∧
      flagOrderOrTradeAsErroneousCandidate 499999 520000 = false :=
  ⟨Or.inl (by decide), by decide, by decide, by decide⟩

end NasdaqItch
