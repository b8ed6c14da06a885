import NasdaqItch.ErroneousTrade
import NasdaqItch.Lib.Binary64

/-!
# The doubles of the program

Two functions of the program compute in double precision: the test for erroneous trades multiplies
the last sale price by a decimal fraction, and the report divides a price by 10000. Neither shows a
rounding error.

* `flag_in_doubles`: the truncated products are those of the exact fractions, so the test is the
  one in integers.
* `printed_price`: the shortest decimal for the price of a line is the price.
-/

namespace NasdaqItch

open Binary64 Nearest

/-! ## The erroneous-trade heuristic -/

/-- The two factors for the band the price falls in. -/
def priceBounds (price : UInt32) : Float × Float :=
  if price < topOf10PercentBand then (0.9, 1.1)
  else if price < topOf5PercentBand then (0.95, 1.05)
  else (0.97, 1.03)

/-- `_flagOrderOrTradeAsErroneousCandidate` with the doubles of the source, for a conversion of
doubles to `uint32_t`. -/
def flagOrderOrTradeAsErroneousCandidateInDoubles (toUInt32 : Float → UInt32)
    (price lastPrice : UInt32) : Bool :=
  let lowerBound := (priceBounds price).1
  let upperBound := (priceBounds price).2
  let floor := toUInt32 (lastPrice.toFloat * lowerBound)
  let ceiling := toUInt32 (lastPrice.toFloat * upperBound)
  price ≤ floor || price ≥ ceiling

/-- What the language says of the conversion: a number that 32 bits hold is truncated. The others
are left open. -/
def Truncates (toUInt32 : Float → UInt32) : Prop :=
  ∀ x : Float, 0 ≤ x → x.toUInt64.toNat < 2 ^ 32 → toUInt32 x = x.toUInt64.toUInt32

/-- The double is near enough to a number of hundredths: if it is below, the rounding of a product
makes up for it, and if it is above, a product does not reach the next integer. -/
def NearHundredths (percent : ℕ) (c : Float) : Prop :=
  ∃ y : ℚ, IsNormal c y ∧ (percent : ℚ) / 100 ≤ y + y / 2 ^ 54 ∧
    y + y / 2 ^ 53 ≤ (percent : ℚ) / 100 + 1 / 2 ^ 40

theorem nearHundredths_of_hasValue {c : Float} {percent : ℕ} (a : ℕ)
    (hvalue : hasValue c a (2 ^ 53) = true) (hlow : percent * 2 ^ 107 ≤ 100 * a * (2 ^ 54 + 1))
    (hhigh : 100 * a * (2 ^ 53 + 1) ≤ percent * 2 ^ 106 + 100 * 2 ^ 66) :
    NearHundredths percent c := by
  refine ⟨_, isNormal_of_hasValue (by decide) hvalue, ?_, ?_⟩
  · have hlow' : (percent : ℚ) * 2 ^ 107 ≤ 100 * a * (2 ^ 54 + 1) := by exact_mod_cast hlow
    norm_num at hlow' ⊢
    linarith
  · have hhigh' : (100 : ℚ) * a * (2 ^ 53 + 1) ≤ percent * 2 ^ 106 + 100 * 2 ^ 66 := by
      exact_mod_cast hhigh
    norm_num at hhigh' ⊢
    linarith

theorem near_lowerBound (price : UInt32) :
    NearHundredths (priceBand price).1 (priceBounds price).1 := by
  unfold priceBand priceBounds
  split_ifs
  · exact nearHundredths_of_hasValue 8106479329266893 (by decide +kernel) (by decide) (by decide)
  · exact nearHundredths_of_hasValue 8556839292003942 (by decide +kernel) (by decide) (by decide)
  · exact nearHundredths_of_hasValue 8736983277098762 (by decide +kernel) (by decide) (by decide)

theorem near_upperBound (price : UInt32) :
    NearHundredths (priceBand price).2 (priceBounds price).2 := by
  unfold priceBand priceBounds
  split_ifs
  · exact nearHundredths_of_hasValue 9907919180215092 (by decide +kernel) (by decide) (by decide)
  · exact nearHundredths_of_hasValue 9457559217478042 (by decide +kernel) (by decide) (by decide)
  · exact nearHundredths_of_hasValue 9277415232383222 (by decide +kernel) (by decide) (by decide)

theorem isNormal_toFloat {price : UInt32} (hpos : 0 < price.toNat) :
    IsNormal price.toFloat price.toNat :=
  isNormal_ofNat hpos (lt_trans price.toNat_lt (by decide))

/-- **One product.** The truncated product of doubles is that of the exact numbers. -/
theorem toNat_toUInt64_hundredths {c : Float} {percent : ℕ} (hnear : NearHundredths percent c)
    (lastPrice : UInt32) (hpos : 50 ≤ percent) (hle : percent ≤ 150) :
    0 ≤ lastPrice.toFloat * c ∧
      (lastPrice.toFloat * c).toUInt64.toNat = lastPrice.toNat * percent / 100 := by
  obtain ⟨y, hc, hlow, hhigh⟩ := hnear
  rcases Nat.eq_zero_or_pos lastPrice.toNat with hzero | hprice
  · obtain rfl := UInt32.toNat_inj.1 (hzero.trans UInt32.toNat_zero.symm)
    have hproduct : (UInt32.toFloat 0 * c).toModel.unpack = .zero .positive :=
      unpack_zero_mul unpack_ofNat_zero hc
    refine ⟨zero_le_of_zero hproduct, ?_⟩
    rw [hzero, zero_mul, Nat.zero_div, toUInt64_of_zero hproduct]
    rfl
  have hfactor : (50 : ℚ) ≤ percent := by exact_mod_cast hpos
  have hfactor' : (percent : ℚ) ≤ 150 := by exact_mod_cast hle
  have hone : (1 : ℚ) ≤ lastPrice.toNat := by exact_mod_cast hprice
  have hlt : (lastPrice.toNat : ℚ) ≤ 4294967296 := by exact_mod_cast lastPrice.toNat_lt.le
  have hy : 1 / 4 ≤ y ∧ y ≤ 2 := by
    norm_num at hlow hhigh
    constructor <;> linarith
  -- The quotient and the remainder of the exact product.
  have hquotient : ((lastPrice.toNat * percent / 100 : ℕ) : ℚ) * 100 ≤
      lastPrice.toNat * percent := by
    exact_mod_cast Nat.div_mul_le_self _ _
  have hremainder : (lastPrice.toNat : ℚ) * percent ≤
      ((lastPrice.toNat * percent / 100 : ℕ) : ℚ) * 100 + 99 := by
    have hnat : lastPrice.toNat * percent ≤ lastPrice.toNat * percent / 100 * 100 + 99 := by omega
    exact_mod_cast hnat
  have hlow' := mul_le_mul_of_nonneg_left hlow (zero_le_one.trans hone)
  have hhigh' := mul_le_mul_of_nonneg_left hhigh (zero_le_one.trans hone)
  refine toNat_toUInt64_mul (isNormal_toFloat hprice) hc ?_ ?_ ?_ ?_
  · calc (1 : ℚ) / 2 ^ 20 ≤ 1 * (1 / 4) := by norm_num
      _ ≤ lastPrice.toNat * y := mul_le_mul hone hy.1 (by norm_num) (by linarith)
  · calc lastPrice.toNat * y ≤ 4294967296 * 2 := mul_le_mul hlt hy.2 (by linarith) (by norm_num)
      _ < 2 ^ 53 := by norm_num
  · linarith
  · linarith

/-- A product below `2 ^ 32` is converted as the language says, any other one as the conversion
does it. -/
theorem toUInt32_hundredths {toUInt32 : Float → UInt32} {lastPrice : UInt32}
    (hconvert : Truncates toUInt32 ∧ ProductsFit lastPrice ∨
      toUInt32 = fun x => x.toUInt64.toUInt32)
    {c : Float} {percent : ℕ} (hnear : NearHundredths percent c) (hpos : 50 ≤ percent)
    (hle : percent ≤ 110) :
    toUInt32 (lastPrice.toFloat * c) = UInt32.ofNat (lastPrice.toNat * percent / 100) := by
  obtain ⟨hnonneg, hproduct⟩ :=
    toNat_toUInt64_hundredths hnear lastPrice hpos (hle.trans (by decide))
  have hwrap : (lastPrice.toFloat * c).toUInt64.toUInt32 =
      UInt32.ofNat (lastPrice.toNat * percent / 100) := by
    rw [← hproduct]
    rfl
  rcases hconvert with ⟨htruncates, hfits⟩ | rfl
  · have hlt : (lastPrice.toFloat * c).toUInt64.toNat < 2 ^ 32 := by
      have hproducts := productsFit_iff.1 hfits
      have hbound := Nat.mul_le_mul_left lastPrice.toNat hle
      rw [hproduct]
      omega
    rw [htruncates _ hnonneg hlt, hwrap]
  · exact hwrap

theorem priceBand_bounds (price : UInt32) : 50 ≤ (priceBand price).1 ∧ (priceBand price).1 ≤ 110 ∧
    50 ≤ (priceBand price).2 ∧ (priceBand price).2 ≤ 110 := by
  unfold priceBand
  split_ifs <;> decide

/-- **The heuristic in doubles.** With a conversion that truncates, and a last sale price for which
the products fit, the test in doubles is the test in integers; and for every last sale price, if the
conversion drops the bits that do not fit. -/
theorem flag_in_doubles {toUInt32 : Float → UInt32} {lastPrice : UInt32}
    (hconvert : Truncates toUInt32 ∧ ProductsFit lastPrice ∨
      toUInt32 = fun x => x.toUInt64.toUInt32) (price : UInt32) :
    flagOrderOrTradeAsErroneousCandidateInDoubles toUInt32 price lastPrice =
      flagOrderOrTradeAsErroneousCandidate price lastPrice := by
  obtain ⟨hlow, hlow', hhigh, hhigh'⟩ := priceBand_bounds price
  rw [flagOrderOrTradeAsErroneousCandidateInDoubles, flagOrderOrTradeAsErroneousCandidate,
    toUInt32_hundredths hconvert (near_lowerBound price) hlow hlow',
    toUInt32_hundredths hconvert (near_upperBound price) hhigh hhigh']

theorem truncates_toUInt32 : Truncates Float.toUInt32 := fun _ _ hlt => toUInt32_eq hlt

theorem flag_in_doubles_saturating : Truncates Float.toUInt32 ∧ ProductsFit 300000 ∧
    flagOrderOrTradeAsErroneousCandidateInDoubles Float.toUInt32 249900 300000 =
      flagOrderOrTradeAsErroneousCandidate 249900 300000 := by
  have hfits : ProductsFit 300000 := by decide
  exact ⟨truncates_toUInt32, hfits, flag_in_doubles (Or.inl ⟨truncates_toUInt32, hfits⟩) 249900⟩

/-! ## The price of a line -/

/-- `_getPriceFromInt`. -/
def getPriceFromInt (price : UInt32) : Float := price.toFloat / 10000

/-- The decimal is read as this double, and each decimal that is read as it has at least as many
digits. -/
def IsShortest (m : ℕ) (s : Bool) (e : ℕ) (x : Float) : Prop :=
  Float.ofScientific m s e = x ∧
    ∀ m' s' e' k, Float.ofScientific m' s' e' = x → m' < 10 ^ k → m < 10 ^ k

theorem ofScientific_price (price : UInt32) :
    Float.ofScientific price.toNat true 4 = getPriceFromInt price := by
  have hlt : price.toNat < 2 ^ 53 := lt_trans price.toNat_lt (by decide)
  have hten : Float.exactlyRepresentablePowersOfTen[4] = (10000 : Float) := by decide
  rw [Float.ofScientific, dif_pos ⟨hlt, by decide⟩, toFloat_toUInt64 hlt]
  simp only [if_true, hten]
  rfl

theorem getPriceFromInt_zero : getPriceFromInt 0 = Float.ofScientific 0 true 0 := by decide +kernel

theorem getPriceFromInt_roundsTo {price : UInt32} (hpos : 0 < price.toNat) :
    ∃ r, IsNormal (getPriceFromInt price) r ∧ 1 / 2 ^ 20 ≤ r ∧
      RoundsTo 53 (price.toNat / 10000 : ℚ) r := by
  have hten : IsNormal 10000 ((10000 : ℕ) / (1 : ℕ)) :=
    isNormal_of_hasValue one_pos (by decide +kernel)
  rw [Nat.cast_one, div_one, Nat.cast_ofNat] at hten
  have hone : (1 : ℚ) ≤ price.toNat := by exact_mod_cast hpos
  have hlt : (price.toNat : ℚ) ≤ 4294967296 := by exact_mod_cast price.toNat_lt.le
  obtain ⟨r, hnormal, hround⟩ := (isRounded_div (isNormal_toFloat hpos) hten).exists_isNormal
    (small_le (by linarith)) (lt_large (by linarith))
  have hnear := (abs_le.1 hround.abs_sub_le).1
  exact ⟨r, hnormal, by linarith, hround⟩

/-- A decimal of not too many digits that is read as the double is the price. -/
theorem decimal_of_reads {m e : ℕ} {s : Bool} {price : UInt32} (hpos : 0 < price.toNat)
    (hm : m < 10 ^ 15) (hreads : Float.ofScientific m s e = getPriceFromInt price) :
    decimal m s e = price.toNat / 10000 := by
  obtain ⟨r, hnormal, hlow, hround⟩ := getPriceFromInt_roundsTo hpos
  rw [← hreads] at hnormal
  refine (ofScientific_roundsTo hnormal (small_le hlow)).eq_of_decimals hround ⟨m, _, hm, rfl⟩
    ⟨price.toNat, -4, lt_trans price.toNat_lt (by decide), ?_⟩ (by decide)
  norm_num
  ring

/-- **Prices are printed exactly.** The shortest decimal that is read as the double of a line is
the price that the double was computed from. -/
theorem printed_price {m e : ℕ} {s : Bool} {price : UInt32}
    (hshortest : IsShortest m s e (getPriceFromInt price)) :
    decimal m s e = price.toNat / 10000 := by
  obtain ⟨hreads, hshort⟩ := hshortest
  rcases Nat.eq_zero_or_pos price.toNat with hzero | hpos
  · obtain rfl := UInt32.toNat_inj.1 (hzero.trans UInt32.toNat_zero.symm)
    have hm := hshort 0 true 0 0 getPriceFromInt_zero.symm (by decide)
    obtain rfl : m = 0 := by omega
    rw [decimal, hzero, Nat.cast_zero, zero_mul, zero_div]
  · have hm := hshort price.toNat true 4 15 (ofScientific_price price)
      (lt_trans price.toNat_lt (by decide))
    exact decimal_of_reads hpos hm hreads

/-- A price that does not end in zero is written with its own digits. -/
theorem isShortest_price {price : UInt32} (hlast : price.toNat % 10 ≠ 0) :
    IsShortest price.toNat true 4 (getPriceFromInt price) := by
  refine ⟨ofScientific_price price, ?_⟩
  intro m s e k hreads hm
  have hprice := price.toNat_lt
  rcases le_or_gt 10 k with hk | hk
  · exact lt_of_lt_of_le (lt_trans hprice (by decide)) (Nat.pow_le_pow_right (by decide) hk)
  have hdigits : m < 10 ^ 15 :=
    hm.trans_le (Nat.pow_le_pow_right (by decide) (by omega))
  have hvalue := decimal_of_reads (by omega) hdigits hreads
  -- The price is the decimal's mantissa, but for zeros at the end of one of them.
  obtain ⟨j, hj⟩ : ∃ j : ℤ, (m : ℚ) * 10 ^ (j - 4) = price.toNat / 10000 :=
    ⟨(if s then -e else e : ℤ) + 4, by rw [add_sub_cancel_right]; exact hvalue⟩
  have hscaled : (m : ℚ) * 10 ^ j = price.toNat := by
    rw [zpow_sub₀ (by norm_num)] at hj
    norm_num at hj
    linarith
  obtain ⟨t, rfl | rfl⟩ := j.eq_nat_or_neg
  · have hnat : m * 10 ^ t = price.toNat := by
      rw [zpow_natCast] at hscaled
      exact_mod_cast hscaled
    rcases Nat.eq_zero_or_pos t with rfl | ht
    · rwa [← hnat, pow_zero, mul_one]
    · obtain ⟨i, rfl⟩ := Nat.exists_eq_add_of_lt ht
      refine absurd (Nat.mod_eq_zero_of_dvd ?_) hlast
      rw [← hnat]
      exact Dvd.dvd.mul_left (dvd_pow_self 10 (by omega)) m
  · have hnat : m = price.toNat * 10 ^ t := by
      rw [zpow_neg, zpow_natCast, ← div_eq_mul_inv, div_eq_iff (by positivity)] at hscaled
      exact_mod_cast hscaled
    exact lt_of_le_of_lt (hnat ▸ Nat.le_mul_of_pos_right _ (by positivity)) hm

theorem printed_price_short : IsShortest 165865 true 4 (getPriceFromInt 165865) ∧
    decimal 165865 true 4 = (165865 : UInt32).toNat / 10000 := by
  have hlast : (165865 : UInt32).toNat % 10 ≠ 0 := by decide
  have hshortest : IsShortest 165865 true 4 (getPriceFromInt 165865) := isShortest_price hlast
  exact ⟨hshortest, printed_price hshortest⟩

end NasdaqItch
