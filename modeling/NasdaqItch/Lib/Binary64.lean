import Mathlib
import NasdaqItch.Lib.Nearest

/-!
# Double precision

The operations of `Float` are defined on bit patterns, with a mantissa that is shifted right and
two more bits for what is shifted out. Here they are connected with rational numbers: a product, a
quotient or a literal is a nearest number of 53 bits.
-/

namespace Binary64

open Nearest
open Float.Model (UnpackedFloat Format totalExponent)
open Float.Model.UnpackedFloat

/-! ## Mantissas -/

/-- What a mantissa and its two bits say of a number: it is the mantissa, a half more if the round
bit is set, and less than a half more if the sticky bit is. -/
def Marks (em : ExtendedMantissa) (t : ℚ) : Prop :=
  ∃ rest : ℚ, 0 ≤ rest ∧ rest < 1 / 2 ∧ (em.stickyBit = false ↔ rest = 0) ∧
    t = em.mantissa + (if em.roundBit then 1 / 2 else 0) + rest

theorem marks_exact (m : ℕ) : Marks (.ofMantissaAndAccuracy m .exact) m :=
  ⟨0, le_rfl, by norm_num, by simp [ExtendedMantissa.ofMantissaAndAccuracy],
    by simp [ExtendedMantissa.ofMantissaAndAccuracy]⟩

/-- A fraction less than one more than the mantissa, compared with a half. -/
theorem marks_inexact (m : ℕ) {f : ℚ} (hpos : 0 < f) (hlt : f < 1) :
    Marks (.ofMantissaAndAccuracy m (.inexact (compare f (1 / 2)))) (m + f) := by
  rcases lt_trichotomy f (1 / 2) with hless | hhalf | hmore
  · rw [compare_lt_iff_lt.2 hless]
    refine ⟨f, hpos.le, hless, iff_of_false Bool.true_eq_false.mp hpos.ne', ?_⟩
    simp [ExtendedMantissa.ofMantissaAndAccuracy]
  · rw [compare_eq_iff_eq.2 hhalf]
    refine ⟨0, le_rfl, by norm_num, iff_of_true rfl rfl, ?_⟩
    simp [ExtendedMantissa.ofMantissaAndAccuracy, hhalf]
  · rw [compare_gt_iff_gt.2 hmore]
    have hne : f - 1 / 2 ≠ 0 := by linarith
    refine ⟨f - 1 / 2, by linarith, by linarith, iff_of_false Bool.true_eq_false.mp hne, ?_⟩
    simp [ExtendedMantissa.ofMantissaAndAccuracy]

theorem marks_div (a : ℕ) {b : ℕ} (hb : 0 < b) :
    Marks (.ofMantissaAndAccuracy (a / b) (accuracyOfFraction (a % b) b)) ((a : ℚ) / b) := by
  have hpos : (0 : ℚ) < b := Nat.cast_pos.2 hb
  have hdivmod : (a : ℚ) = b * ((a / b : ℕ) : ℚ) + ((a % b : ℕ) : ℚ) := by
    exact_mod_cast (Nat.div_add_mod a b).symm
  have hsplit : (a : ℚ) / b = ((a / b : ℕ) : ℚ) + ((a % b : ℕ) : ℚ) / b :=
    calc (a : ℚ) / b = (b * ((a / b : ℕ) : ℚ) + ((a % b : ℕ) : ℚ)) / b :=
          congrArg (· / (b : ℚ)) hdivmod
      _ = ((a / b : ℕ) : ℚ) + ((a % b : ℕ) : ℚ) / b := by
        rw [add_div, mul_div_cancel_left₀ _ hpos.ne']
  rw [hsplit, accuracyOfFraction]
  split_ifs with hzero
  · rw [hzero, Nat.cast_zero, zero_div, add_zero]
    exact marks_exact _
  · have hfraction : (0 : ℚ) < ((a % b : ℕ) : ℚ) / b :=
      div_pos (by exact_mod_cast Nat.pos_of_ne_zero hzero) hpos
    have hlt : ((a % b : ℕ) : ℚ) / b < 1 := by
      rw [div_lt_one hpos]
      exact_mod_cast Nat.mod_lt a hb
    have hcompare : compare (2 * (a % b)) b = compare (((a % b : ℕ) : ℚ) / b) (1 / 2) := by
      have hscale : (0 : ℚ) < 2 * b := by positivity
      have hleft : ((a % b : ℕ) : ℚ) / b * (2 * b) = ((2 * (a % b) : ℕ) : ℚ) := by
        push_cast
        field_simp
      have hright : (1 : ℚ) / 2 * (2 * b) = (b : ℚ) := by ring
      rw [← cmp_eq_compare, ← cmp_eq_compare, ← cmp_mul_pos_right hscale, hleft, hright,
        Nat.strictMono_cast.cmp_map_eq]
    rw [hcompare]
    exact marks_inexact _ hfraction hlt

variable {em : ExtendedMantissa} {t : ℚ}

/-- One place to the right: the last bit becomes the round bit, and the two bits become the sticky
bit. -/
theorem Marks.shiftRightOne (h : Marks em t) : Marks em.shiftRightOne (t / 2) := by
  obtain ⟨rest, hnonneg, hlt, hsticky, rfl⟩ := h
  refine ⟨(if em.roundBit then 1 / 2 else 0) / 2 + rest / 2, ?_, ?_, ?_, ?_⟩
  · split_ifs <;> linarith
  · split_ifs <;> linarith
  · change (em.roundBit || em.stickyBit) = false ↔ _
    cases em.roundBit with
    | false =>
        rw [Bool.false_or, hsticky, if_neg Bool.false_ne_true]
        constructor <;> intro hrest <;> linarith
    | true =>
        rw [Bool.true_or, if_pos rfl]
        exact iff_of_false (by decide) (by linarith)
  · have hparity : (em.mantissa : ℚ) =
        2 * ((em.mantissa / 2 : ℕ) : ℚ) + ((em.mantissa % 2 : ℕ) : ℚ) := by
      exact_mod_cast (Nat.div_add_mod em.mantissa 2).symm
    have hbit : ((em.mantissa % 2 : ℕ) : ℚ) / 2 = if em.mantissa % 2 != 0 then 1 / 2 else 0 := by
      rcases Nat.mod_two_eq_zero_or_one em.mantissa with h | h <;> simp [h]
    change _ = ((em.mantissa / 2 : ℕ) : ℚ) + (if em.mantissa % 2 != 0 then 1 / 2 else 0) + _
    linarith

theorem Marks.shiftRight (h : Marks em t) (n : ℕ) :
    Marks (em >>> n) (t / 2 ^ n) := by
  change Marks (n.repeat ExtendedMantissa.shiftRightOne em) (t / 2 ^ n)
  induction n with
  | zero => simpa [Nat.repeat] using h
  | succ n ih =>
      rw [Nat.repeat, pow_succ, ← div_div]
      exact ih.shiftRightOne

theorem Marks.le (h : Marks em t) : (em.mantissa : ℚ) ≤ t := by
  obtain ⟨rest, hnonneg, hlt, hsticky, rfl⟩ := h
  split_ifs <;> linarith

theorem Marks.lt (h : Marks em t) : t < em.mantissa + 1 := by
  obtain ⟨rest, hnonneg, hlt, hsticky, rfl⟩ := h
  split_ifs <;> linarith

theorem Marks.abs_sub_le (h : Marks em t) :
    |(em.roundedMantissa : ℚ) - t| ≤ 1 / 2 := by
  obtain ⟨rest, hnonneg, hlt, hsticky, rfl⟩ := h
  obtain ⟨m, roundBit, stickyBit⟩ := em
  rw [abs_le]
  cases roundBit with
  | false =>
      -- The mantissa stays, and the rest is less than a half.
      have hround : ExtendedMantissa.roundedMantissa ⟨m, false, stickyBit⟩ = m := by
        cases stickyBit <;> rfl
      rw [hround]
      constructor <;> simp only [Bool.false_eq_true, if_false] <;> linarith
  | true =>
      cases stickyBit with
      | false =>
          have hround : ExtendedMantissa.roundedMantissa ⟨m, true, false⟩ = m + m % 2 := rfl
          have hparity : ((m % 2 : ℕ) : ℚ) = 0 ∨ ((m % 2 : ℕ) : ℚ) = 1 := by
            rcases Nat.mod_two_eq_zero_or_one m with h | h <;> simp [h]
          have hrest : rest = 0 := hsticky.1 rfl
          rw [hround, Nat.cast_add]
          rcases hparity with h | h <;> rw [h] <;> constructor <;>
            simp only [if_true] <;> linarith
      | true =>
          have hround : ExtendedMantissa.roundedMantissa ⟨m, true, true⟩ = m + 1 := rfl
          rw [hround, Nat.cast_succ]
          constructor <;> simp only [if_true] <;> linarith

/-! ## Rounding -/

/-- The double `n * 2 ^ e` for a mantissa that the rounding may have carried to 54 bits. -/
def carried (n : ℕ) (e : ℤ) : UnpackedFloat :=
  if hzero : n = 0 then .zero .positive
  else if n < 2 ^ 53 then .finite .positive n e (Nat.pos_of_ne_zero hzero)
  else .finite .positive (2 ^ 52) (e + 1) (by decide)

/-- `n * 2 ^ e` is `x` rounded to 53 bits, or to fewer for a subnormal number: `e` is the exponent
of the last bit. Overflow is left to the packing. -/
structure IsNearest (x : ℚ) (n : ℕ) (e : ℤ) : Prop where
  minExponent : -1074 ≤ e
  carry : n ≤ 2 ^ 53
  error : |(n : ℚ) * 2 ^ e - x| ≤ 2 ^ e / 2
  normal : e = -1074 ∨ (2 : ℚ) ^ (e + 53) ≤ 2 * x
  high : x < (2 : ℚ) ^ (e + 53)

/-- The result of rounding `x`. -/
def Rounded (x : ℚ) (f : UnpackedFloat) : Prop := ∃ n e, IsNearest x n e ∧ f = carried n e

theorem targetExponent_eq (m : ℕ) (e : ℤ) :
    Format.binary64.targetExponent (totalExponent m e) = max (m.log2 + e - 52) (-1074) := by
  simp only [Format.targetExponent, totalExponent, Format.mantissaBits, Format.minExponent]
  norm_num
  omega

theorem shiftToTargetExponent_of_lt {n : ℕ} {e : ℤ} (hn : n < 2 ^ 53) (he : -1074 ≤ e) :
    shiftToTargetExponent .binary64 n e .exact = (⟨n, false, false⟩, e) := by
  have hlog : n.log2 ≤ 52 := by
    rcases Nat.eq_zero_or_pos n with rfl | hpos
    · decide
    · exact Nat.le_of_lt_succ ((Nat.log2_lt hpos.ne').2 hn)
  have hshift : (max (n.log2 + e - 52) (-1074) - e).toNat = 0 := by omega
  rw [shiftToTargetExponent, targetExponent_eq, shiftToExponent, hshift]
  simp only [Nat.cast_zero, add_zero]
  rfl

theorem shiftToTargetExponent_carry {e : ℤ} (he : -1074 ≤ e) :
    shiftToTargetExponent .binary64 (2 ^ 53) e .exact = (⟨2 ^ 52, false, false⟩, e + 1) := by
  have hshift : (max (((2 ^ 53 : ℕ).log2 : ℤ) + e - 52) (-1074) - e).toNat = 1 := by
    rw [Nat.log2_two_pow]
    omega
  rw [shiftToTargetExponent, targetExponent_eq, shiftToExponent, hshift]
  rfl

/-- The last steps: the mantissa is shifted to its exponent, rounded, and shifted once more after a
carry. -/
theorem roundWithAccuracy_eq_carried {m n k : ℕ} {e : ℤ} {accuracy : Accuracy}
    (hk : (max (m.log2 + e - 52) (-1074) - e).toNat = k) (hlow : -1074 ≤ e + k) (hn : n ≤ 2 ^ 53)
    (hround : (ExtendedMantissa.ofMantissaAndAccuracy m accuracy >>> k).roundedMantissa = n) :
    roundWithAccuracy .binary64 .positive m e accuracy = carried n (e + k) := by
  have hfirst : shiftToTargetExponent .binary64 m e accuracy =
      (ExtendedMantissa.ofMantissaAndAccuracy m accuracy >>> k, e + k) := by
    rw [shiftToTargetExponent, targetExponent_eq, shiftToExponent, hk]
  rcases hn.lt_or_eq with hlt | rfl
  · simp only [roundWithAccuracy, hfirst, hround, shiftToTargetExponent_of_lt hlt hlow, carried,
      hlt, if_true]
  · simp only [roundWithAccuracy, hfirst, hround, shiftToTargetExponent_carry hlow]
    rfl

theorem mantissa_ofMantissaAndAccuracy (m : ℕ) (accuracy : Accuracy) :
    (ExtendedMantissa.ofMantissaAndAccuracy m accuracy).mantissa = m := by
  cases accuracy with
  | exact => rfl
  | inexact o => cases o <;> rfl

theorem Marks.lt_zpow {m : ℕ} {accuracy : Accuracy} (e : ℤ)
    (h : Marks (.ofMantissaAndAccuracy m accuracy) t) :
    t * 2 ^ e < (2 : ℚ) ^ (m.log2 + e + 1) := by
  have hlt := h.lt
  rw [mantissa_ofMantissaAndAccuracy] at hlt
  have hm : (m : ℚ) + 1 ≤ 2 ^ (m.log2 + 1) := by exact_mod_cast Nat.lt_log2_self
  calc t * 2 ^ e < 2 ^ (m.log2 + 1) * 2 ^ e :=
        mul_lt_mul_of_pos_right (hlt.trans_le hm) (zpow_pos two_pos _)
    _ = 2 ^ (m.log2 + e + 1) := by
      rw [add_right_comm, zpow_add₀ two_ne_zero, ← zpow_natCast]
      push_cast
      rfl

theorem Marks.zpow_le {m : ℕ} {accuracy : Accuracy} (e : ℤ)
    (h : Marks (.ofMantissaAndAccuracy m accuracy) t) (hm : m ≠ 0) :
    (2 : ℚ) ^ (m.log2 + e) ≤ t * 2 ^ e := by
  have hle := h.le
  rw [mantissa_ofMantissaAndAccuracy] at hle
  have hlog : (2 : ℚ) ^ m.log2 ≤ m := by exact_mod_cast Nat.log2_self_le hm
  rw [zpow_add₀ two_ne_zero, zpow_natCast]
  exact mul_le_mul_of_nonneg_right (hlog.trans hle) (zpow_pos two_pos e).le

theorem Marks.roundedMantissa_le (h : Marks em t) (ht : t < 2 ^ 53) :
    em.roundedMantissa ≤ 2 ^ 53 := by
  have hnear := (abs_le.1 h.abs_sub_le).2
  have hcast : (em.roundedMantissa : ℚ) < ((2 ^ 53 + 1 : ℕ) : ℚ) := by
    push_cast
    linarith
  exact Nat.lt_succ_iff.1 (by exact_mod_cast hcast)

/-- **Correct rounding.** A number is rounded to nearest, if the mantissa that it is given with is
not too coarse. -/
theorem rounded_roundWithAccuracy {m : ℕ} {e : ℤ} {accuracy : Accuracy}
    (hmarks : Marks (.ofMantissaAndAccuracy m accuracy) t)
    (hfine : e ≤ max (m.log2 + e - 52) (-1074)) (hzero : m = 0 → e ≤ -1074) :
    Rounded (t * 2 ^ e) (roundWithAccuracy .binary64 .positive m e accuracy) := by
  obtain ⟨k, hk⟩ := Int.le.dest hfine
  have htoNat : (max (m.log2 + e - 52) (-1074) - e).toNat = k := by omega
  have hlow : -1074 ≤ e + k := by omega
  have hunit : (0 : ℚ) < 2 ^ (e + k) := zpow_pos two_pos _
  have hshifted := hmarks.shiftRight k
  have hscale : t * 2 ^ e = t / 2 ^ k * 2 ^ (e + k) := by
    rw [zpow_add_natCast]
    field_simp
  have hhigh : t * 2 ^ e < (2 : ℚ) ^ (e + k + 53) :=
    (hmarks.lt_zpow e).trans_le (zpow_le_zpow_right₀ one_le_two (by omega))
  have hquotient : t / 2 ^ k < 2 ^ 53 := by
    rw [hscale, zpow_add₀ two_ne_zero (e + k), mul_comm ((2 : ℚ) ^ (e + k)),
      mul_lt_mul_iff_left₀ hunit] at hhigh
    exact_mod_cast hhigh
  have hcarry := hshifted.roundedMantissa_le hquotient
  refine ⟨_, e + k, ⟨hlow, hcarry, ?_, ?_, hhigh⟩,
    roundWithAccuracy_eq_carried htoNat hlow hcarry rfl⟩
  · have hscaled := mul_le_mul_of_nonneg_right hshifted.abs_sub_le hunit.le
    rw [hscale, ← sub_mul, abs_mul, abs_of_pos hunit]
    linarith
  · -- All the 53 bits are there, unless the exponent is the smallest one.
    rcases eq_or_ne (e + k : ℤ) (-1074) with hsub | hnormal
    · exact Or.inl hsub
    · have hm : m ≠ 0 := by
        intro hm
        have hsmall := hzero hm
        rw [hm, Nat.log2_zero] at hk
        omega
      refine Or.inr ?_
      calc (2 : ℚ) ^ (e + k + 53) = 2 ^ (1 + (m.log2 + e) : ℤ) := by congr 1; omega
        _ = 2 * 2 ^ (m.log2 + e : ℤ) := zpow_one_add₀ two_ne_zero _
        _ ≤ 2 * (t * 2 ^ e) := mul_le_mul_of_nonneg_left (hmarks.zpow_le e hm) zero_le_two

/-! ## Products, quotients and integers -/

theorem rounded_mul {m₁ m₂ : ℕ} {e₁ e₂ : ℤ} {h₁ : 0 < m₁} {h₂ : 0 < m₂}
    (hbits : 2 ^ 52 ≤ m₁ * m₂) :
    Rounded (m₁ * 2 ^ e₁ * (m₂ * 2 ^ e₂))
      (mul .binary64 (.finite .positive m₁ e₁ h₁) (.finite .positive m₂ e₂ h₂)) := by
  have hne : m₁ * m₂ ≠ 0 := by positivity
  have hlog : 52 ≤ (m₁ * m₂).log2 := (Nat.le_log2 hne).2 hbits
  have hvalue : (m₁ * 2 ^ e₁ * (m₂ * 2 ^ e₂) : ℚ) = ((m₁ * m₂ : ℕ) : ℚ) * 2 ^ (e₁ + e₂) := by
    rw [zpow_add₀ two_ne_zero, Nat.cast_mul]
    ring
  rw [hvalue]
  exact rounded_roundWithAccuracy (marks_exact _) (by omega) fun hzero => absurd hzero hne

/-- The exponent of a quotient before it is rounded. -/
def quotientExponent (m₁ : ℕ) (e₁ : ℤ) (m₂ : ℕ) (e₂ : ℤ) : ℤ :=
  min (e₁ - e₂) (max (m₁.log2 + e₁ - (m₂.log2 + e₂) - 53) (-1074))

theorem divCore_eq (m₁ : ℕ) (e₁ : ℤ) (m₂ : ℕ) (e₂ : ℤ) {e : ℤ} {s : ℕ}
    (he : quotientExponent m₁ e₁ m₂ e₂ = e) (hs : e₁ - e₂ - e = s) :
    divCore .binary64 m₁ e₁ m₂ e₂ =
      (m₁ * 2 ^ s / m₂, e, accuracyOfFraction (m₁ * 2 ^ s % m₂) m₂) := by
  have htarget : Format.binary64.targetExponent (totalExponent m₁ e₁ - totalExponent m₂ e₂) =
      max (m₁.log2 + e₁ - (m₂.log2 + e₂) - 53) (-1074) := by
    simp only [Format.targetExponent, totalExponent, Format.mantissaBits, Format.minExponent]
    norm_num
    omega
  rw [quotientExponent, ← htarget] at he
  rw [divCore, he]
  simp only [hs, Int.toNat_natCast, Nat.shiftLeft_eq]

/-- A quotient has enough bits, or the smallest exponent: the numerator is shifted before. -/
theorem quotient_fine {m₁ m₂ s : ℕ} {e₁ e₂ e : ℤ} (h₁ : 0 < m₁) (h₂ : 0 < m₂)
    (he : quotientExponent m₁ e₁ m₂ e₂ = e) (hs : e₁ - e₂ - e = s) (hnormal : -1074 < e) :
    2 ^ 52 ≤ m₁ * 2 ^ s / m₂ := by
  rw [quotientExponent] at he
  have hshift : m₂.log2 + 53 ≤ m₁.log2 + s := by omega
  rw [Nat.le_div_iff_mul_le h₂]
  calc 2 ^ 52 * m₂ ≤ 2 ^ 52 * 2 ^ (m₂.log2 + 1) := Nat.mul_le_mul_left _ Nat.lt_log2_self.le
    _ = 2 ^ (m₂.log2 + 53) := by rw [← pow_add]; congr 1; omega
    _ ≤ 2 ^ (m₁.log2 + s) := Nat.pow_le_pow_right two_pos hshift
    _ = 2 ^ m₁.log2 * 2 ^ s := pow_add _ _ _
    _ ≤ m₁ * 2 ^ s := Nat.mul_le_mul_right _ (Nat.log2_self_le h₁.ne')

theorem rounded_div {m₁ m₂ : ℕ} {e₁ e₂ : ℤ} {h₁ : 0 < m₁} {h₂ : 0 < m₂} :
    Rounded (m₁ * 2 ^ e₁ / (m₂ * 2 ^ e₂))
      (div .binary64 (.finite .positive m₁ e₁ h₁) (.finite .positive m₂ e₂ h₂)) := by
  obtain ⟨e, he⟩ : ∃ e, quotientExponent m₁ e₁ m₂ e₂ = e := ⟨_, rfl⟩
  obtain ⟨s, hs⟩ : ∃ s : ℕ, e₁ - e₂ - e = s := Int.eq_ofNat_of_zero_le (by
    rw [← he, quotientExponent]
    omega)
  have hvalue : (m₁ * 2 ^ e₁ / (m₂ * 2 ^ e₂) : ℚ) = ((m₁ * 2 ^ s : ℕ) : ℚ) / m₂ * 2 ^ e := by
    have hexp : e₁ = e₂ + (s + e) := by omega
    rw [hexp, zpow_add₀ two_ne_zero, zpow_add₀ two_ne_zero, zpow_natCast, Nat.cast_mul,
      Nat.cast_pow, Nat.cast_ofNat]
    field_simp
  have hdiv : div .binary64 (.finite .positive m₁ e₁ h₁) (.finite .positive m₂ e₂ h₂) =
      roundWithAccuracy .binary64 .positive (m₁ * 2 ^ s / m₂) e
        (accuracyOfFraction (m₁ * 2 ^ s % m₂) m₂) := by
    rw [div, divCore_eq m₁ e₁ m₂ e₂ he hs]
    rfl
  rw [hvalue, hdiv]
  by_cases hnormal : -1074 < e
  · have hfine := quotient_fine h₁ h₂ he hs hnormal
    have hne : m₁ * 2 ^ s / m₂ ≠ 0 := (lt_of_lt_of_le (by positivity) hfine).ne'
    have hlog := (Nat.le_log2 hne).2 hfine
    exact rounded_roundWithAccuracy (marks_div _ h₂) (by omega) fun hzero => absurd hzero hne
  · exact rounded_roundWithAccuracy (marks_div _ h₂) (by omega) fun _ => not_lt.1 hnormal

theorem rounded_ofNat {n : ℕ} (hpos : 0 < n) (hlt : n < 2 ^ 53) :
    Rounded n (ofNat .binary64 n) := by
  have hlog : n.log2 ≤ 52 := Nat.le_of_lt_succ ((Nat.log2_lt hpos.ne').2 hlt)
  have htarget : max ((n.log2 : ℤ) + 0 - 52) (-1074) = -(52 - n.log2 : ℕ) := by omega
  have hround : ofNat .binary64 n = roundWithAccuracy .binary64 .positive
      (n <<< (52 - n.log2)) (-(52 - n.log2 : ℕ)) .exact := by
    rw [ofNat, ofInt, UnpackedFloat.normalize, compare_gt_iff_gt.2 (Int.natCast_pos.2 hpos)]
    simp only [Int.toNat_natCast, UnpackedFloat.round, targetExponent_eq, htarget,
      decreaseExponent, zero_sub, neg_neg]
  have hvalue : (n : ℚ) = ((n <<< (52 - n.log2) : ℕ) : ℚ) * 2 ^ (-(52 - n.log2 : ℕ) : ℤ) := by
    rw [Nat.shiftLeft_eq, Nat.cast_mul, Nat.cast_pow, Nat.cast_ofNat, zpow_neg, zpow_natCast,
      mul_assoc, mul_inv_cancel₀ (by positivity), mul_one]
  have hne : n <<< (52 - n.log2) ≠ 0 := by
    rw [Nat.shiftLeft_eq]
    positivity
  have hbits : 52 ≤ (n <<< (52 - n.log2)).log2 := by
    rw [Nat.le_log2 hne, Nat.shiftLeft_eq]
    calc 2 ^ 52 = 2 ^ n.log2 * 2 ^ (52 - n.log2) := by rw [← pow_add]; congr 1; omega
      _ ≤ n * 2 ^ (52 - n.log2) := Nat.mul_le_mul_right _ (Nat.log2_self_le hpos.ne')
  rw [hround, hvalue]
  exact rounded_roundWithAccuracy (marks_exact _) (by omega) fun hzero => absurd hzero hne

/-! ## Bit patterns -/

theorem toNat_implicit (mantissa : BitVec 52) :
    (1#1 ++ mantissa).toNat = 2 ^ 52 + mantissa.toNat := by
  rw [BitVec.toNat_append, ← Nat.shiftLeft_add_eq_or_of_lt mantissa.isLt]
  rfl

theorem unpack_packComponents (exponent : BitVec 11) (mantissa : BitVec 52) :
    unpack .binary64 (packComponents .binary64 .positive exponent mantissa) =
      if exponent = -1#11 then if mantissa = 0#52 then .infinity .positive else .notANumber
      else if exponent = 0#11 then
        if h : mantissa = 0#52 then .zero .positive
        else .finite .positive mantissa.toNat (-1074)
          (Nat.pos_of_ne_zero fun hzero => h (BitVec.eq_of_toNat_eq hzero))
      else .finite .positive (2 ^ 52 + mantissa.toNat) (exponent.toNat - 1075)
        (Nat.add_pos_left (Nat.two_pow_pos 52) _) := by
  simp only [unpack, unpackMantissa_packComponents, unpackExponent_packComponents,
    unpackSign_packComponents, Sign.ofBitVec_toBitVec, toNat_implicit]
  split_ifs with hones hzero hexp <;> try rfl
  subst hexp
  rfl

/-- A double of 53 bits, or with the smallest exponent, is packed into its bit pattern, if its
exponent is not too large. -/
theorem unpack_pack_finite {m : ℕ} {e : ℤ} {hm : 0 < m} (hlt : m < 2 ^ 53) (he : -1074 ≤ e)
    (hbits : 2 ^ 52 ≤ m ∨ e = -1074) :
    unpack .binary64 (pack .binary64 (.finite .positive m e hm)) =
      if 971 < e then .infinity .positive else .finite .positive m e hm := by
  have hpack : pack .binary64 (.finite .positive m e hm) =
      if 2 ^ 11 ≤ (e + 1075).toNat + 1 then packedInfinity .binary64 .positive
      else if m.log2 + 1 = 53 then
        packComponents .binary64 .positive (.ofNat 11 (e + 1075).toNat) (.ofNat 52 m)
      else packComponents .binary64 .positive 0#11 (.ofNat 52 m) := by
    rw [show e + 1075 = e + 1023 + 52 by ring]
    rfl
  rw [hpack]
  by_cases hover : 971 < e
  · rw [if_pos hover, if_pos (by omega)]
    rfl
  rw [if_neg hover, if_neg (by omega)]
  by_cases hnormal : 2 ^ 52 ≤ m
  · have hlog : m.log2 = 52 := (Nat.log2_eq_iff hm.ne').2 ⟨hnormal, hlt⟩
    have hexp : (BitVec.ofNat 11 (e + 1075).toNat).toNat = (e + 1075).toNat := by
      rw [BitVec.toNat_ofNat, Nat.mod_eq_of_lt (by omega)]
    have hones : BitVec.ofNat 11 (e + 1075).toNat ≠ -1#11 := by
      intro h
      have hvalue : (e + 1075).toNat = 2047 := hexp.symm.trans (congrArg BitVec.toNat h)
      omega
    have hzero : BitVec.ofNat 11 (e + 1075).toNat ≠ 0#11 := by
      intro h
      have hvalue : (e + 1075).toNat = 0 := hexp.symm.trans (congrArg BitVec.toNat h)
      omega
    have hmantissa : 2 ^ 52 + (BitVec.ofNat 52 m).toNat = m := by
      rw [BitVec.toNat_ofNat]
      omega
    rw [if_pos (by omega), unpack_packComponents, if_neg hones, if_neg hzero]
    simp only [hmantissa, hexp, UnpackedFloat.finite.injEq, true_and]
    omega
  · obtain rfl := hbits.resolve_left hnormal
    have hlog : m.log2 < 52 := (Nat.log2_lt hm.ne').2 (by omega)
    have hmantissa : (BitVec.ofNat 52 m).toNat = m := by
      rw [BitVec.toNat_ofNat, Nat.mod_eq_of_lt (by omega)]
    have hzero : BitVec.ofNat 52 m ≠ 0#52 := by
      intro h
      have hvalue : m = 0 := hmantissa.symm.trans (congrArg BitVec.toNat h)
      omega
    rw [if_neg (by omega), unpack_packComponents, if_neg (by decide), if_pos rfl, dif_neg hzero]
    simp only [hmantissa]

/-! ## Doubles -/

variable {x y r : ℚ}

theorem unpack_pack_zero :
    unpack .binary64 (pack .binary64 (.zero .positive)) = .zero .positive := unpack_packedZero

/-- A carried mantissa is that of a finite double of the same value, with all its bits or with the
smallest exponent. -/
theorem carried_eq_finite {n : ℕ} {e : ℤ} (hpos : 0 < n) (hn : n ≤ 2 ^ 53)
    (hbits : 2 ^ 52 ≤ n ∨ e = -1074) : ∃ (m : ℕ) (e' : ℤ) (hm : 0 < m),
      carried n e = .finite .positive m e' hm ∧ m < 2 ^ 53 ∧ (2 ^ 52 ≤ m ∨ e' = -1074) ∧
        e ≤ e' ∧ e' ≤ e + 1 ∧ (m : ℚ) * 2 ^ e' = n * 2 ^ e := by
  rcases hn.lt_or_eq with hlt | rfl
  · refine ⟨n, e, hpos, ?_, hlt, hbits, le_rfl, by omega, rfl⟩
    rw [carried, dif_neg hpos.ne', if_pos hlt]
  · refine ⟨2 ^ 52, e + 1, by decide, rfl, by decide, Or.inl le_rfl, by omega, le_rfl, ?_⟩
    rw [zpow_add₀ two_ne_zero]
    push_cast
    ring

/-- All the bits of a rounded number are there, if they are of the number. -/
theorem IsNearest.le_mantissa {n : ℕ} {e : ℤ} (h : IsNearest x n e)
    (hx : (2 : ℚ) ^ (e + 53) ≤ 2 * x) : 2 ^ 52 ≤ n := by
  have hunit : (0 : ℚ) < 2 ^ e := zpow_pos two_pos e
  have hbelow := (abs_le.1 h.error).1
  rw [zpow_add₀ two_ne_zero] at hx
  have hlow : (2 ^ 52 - 1 / 2 : ℚ) * 2 ^ e ≤ n * 2 ^ e := by
    norm_num at hx ⊢
    linarith
  have hlow' := (mul_le_mul_iff_left₀ hunit).1 hlow
  have hcast : ((2 ^ 52 : ℕ) : ℚ) < ((n + 1 : ℕ) : ℚ) := by
    push_cast
    linarith
  exact Nat.lt_succ_iff.1 (by exact_mod_cast hcast)

/-- The double is the positive number `x`, with all its 53 bits. -/
def IsNormal (f : Float) (x : ℚ) : Prop := ∃ (m : ℕ) (e : ℤ) (hm : 0 < m), 2 ^ 52 ≤ m ∧
  f.toModel.unpack = .finite .positive m e hm ∧ x = m * 2 ^ e

/-- The double is packed from `x`, rounded. -/
def IsRounded (f : Float) (x : ℚ) : Prop := ∃ g, f = .ofModel (.pack g) ∧ Rounded x g

theorem unpack_ofModel_pack (g : UnpackedFloat) :
    (Float.ofModel (.pack g)).toModel.unpack = unpack .binary64 (pack .binary64 g) := rfl

theorem lt_of_zpow_lt {i j : ℤ} (h : (2 : ℚ) ^ i < 2 ^ j) : i < j :=
  (zpow_lt_zpow_iff_right₀ one_lt_two).1 h

theorem small_le (h : 1 / 2 ^ 20 ≤ x) : (2 : ℚ) ^ (-1000 : ℤ) ≤ x := by
  refine le_trans ?_ h
  calc (2 : ℚ) ^ (-1000 : ℤ) ≤ 2 ^ (-20 : ℤ) := zpow_le_zpow_right₀ one_le_two (by decide)
    _ = 1 / 2 ^ 20 := by norm_num

theorem lt_large (h : x < 2 ^ 53) : x < (2 : ℚ) ^ (900 : ℤ) := by
  refine h.trans_le ?_
  calc (2 : ℚ) ^ 53 = 2 ^ (53 : ℤ) := by norm_num
    _ ≤ 2 ^ (900 : ℤ) := zpow_le_zpow_right₀ one_le_two (by decide)

/-- In the middle of the range neither overflow nor a loss of bits is possible. -/
theorem IsRounded.exists_isNormal {f : Float} (h : IsRounded f x) (hlow : (2 : ℚ) ^ (-1000 : ℤ) ≤ x)
    (hhigh : x < (2 : ℚ) ^ (900 : ℤ)) : ∃ r, IsNormal f r ∧ RoundsTo 53 x r := by
  obtain ⟨g, rfl, n, e, hnearest, rfl⟩ := h
  have hmin := hnearest.minExponent
  have hsmall : -1000 < e + 53 := lt_of_zpow_lt (hlow.trans_lt hnearest.high)
  have hbits := hnearest.normal.resolve_left (by omega)
  have hlarge : e + 53 < 1 + 900 := by
    refine lt_of_zpow_lt (hbits.trans_lt ?_)
    rw [zpow_add₀ two_ne_zero, zpow_one]
    linarith
  have hmantissa := hnearest.le_mantissa hbits
  obtain ⟨m, e', hm, hfinite, hlt, hall, hle, hle', hvalue⟩ :=
    carried_eq_finite (lt_of_lt_of_le (by decide) hmantissa) hnearest.carry (Or.inl hmantissa)
  have hunpack : (Float.ofModel (.pack (carried n e))).toModel.unpack =
      .finite .positive m e' hm := by
    rw [unpack_ofModel_pack, hfinite, unpack_pack_finite hlt (by omega) hall, if_neg (by omega)]
  exact ⟨n * 2 ^ e, ⟨m, e', hm, hall.resolve_right (by omega), hunpack, hvalue.symm⟩,
    e, n, rfl, hnearest.error, hbits, hnearest.high⟩

theorem IsRounded.roundsTo {f : Float} (h : IsRounded f x) (hnormal : IsNormal f r)
    (hlow : (2 : ℚ) ^ (-1000 : ℤ) ≤ r) : RoundsTo 53 x r := by
  obtain ⟨g, rfl, n, e, hnearest, rfl⟩ := h
  obtain ⟨c, i, hc, hbig, hunpack, rfl⟩ := hnormal
  have hmin := hnearest.minExponent
  rw [unpack_ofModel_pack] at hunpack
  rcases Nat.eq_zero_or_pos n with rfl | hpos
  · rw [show carried 0 e = .zero .positive from rfl, unpack_pack_zero] at hunpack
    cases hunpack
  have hall : 2 ^ 52 ≤ n ∨ e = -1074 :=
    hnearest.normal.elim Or.inr fun hbits => Or.inl (hnearest.le_mantissa hbits)
  obtain ⟨m, e', hm, hfinite, hlt, hall', hle, hle', hvalue⟩ :=
    carried_eq_finite hpos hnearest.carry hall
  rw [hfinite, unpack_pack_finite hlt (by omega) hall'] at hunpack
  split_ifs at hunpack with hover
  obtain ⟨-, rfl, rfl⟩ := UnpackedFloat.finite.inj hunpack
  rw [hvalue] at hlow ⊢
  -- So the exponent is not the smallest one.
  have hsmall : -1000 < 1 + (e + 53) := by
    refine lt_of_zpow_lt (hlow.trans_lt ?_)
    have hunit : (0 : ℚ) < 2 ^ e := zpow_pos two_pos e
    have hcarry : (n : ℚ) * 2 ^ e ≤ 2 ^ 53 * 2 ^ e :=
      mul_le_mul_of_nonneg_right (by exact_mod_cast hnearest.carry) hunit.le
    rw [zpow_add₀ two_ne_zero, zpow_add₀ two_ne_zero]
    norm_num at hcarry ⊢
    linarith
  exact ⟨e, n, rfl, hnearest.error, hnearest.normal.resolve_left (by omega), hnearest.high⟩

theorem isRounded_mul {f g : Float} (hf : IsNormal f x) (hg : IsNormal g y) :
    IsRounded (f * g) (x * y) := by
  obtain ⟨m₁, e₁, h₁, hbig₁, hunpack₁, rfl⟩ := hf
  obtain ⟨m₂, e₂, h₂, hbig₂, hunpack₂, rfl⟩ := hg
  refine ⟨mul .binary64 f.toModel.unpack g.toModel.unpack, rfl, ?_⟩
  rw [hunpack₁, hunpack₂]
  exact rounded_mul (hbig₁.trans (Nat.le_mul_of_pos_right _ h₂))

theorem isRounded_div {f g : Float} (hf : IsNormal f x) (hg : IsNormal g y) :
    IsRounded (f / g) (x / y) := by
  obtain ⟨m₁, e₁, h₁, hbig₁, hunpack₁, rfl⟩ := hf
  obtain ⟨m₂, e₂, h₂, hbig₂, hunpack₂, rfl⟩ := hg
  refine ⟨div .binary64 f.toModel.unpack g.toModel.unpack, rfl, ?_⟩
  rw [hunpack₁, hunpack₂]
  exact rounded_div

theorem isNormal_ofNat {n : ℕ} (hpos : 0 < n) (hlt : n < 2 ^ 53) :
    IsNormal (.ofModel (.ofNat n)) n := by
  have hone : (1 : ℚ) ≤ n := by exact_mod_cast hpos
  have hhigh : (n : ℚ) < 2 ^ 53 := by exact_mod_cast hlt
  have hrounded : IsRounded (.ofModel (.ofNat n)) (n : ℚ) := ⟨_, rfl, rounded_ofNat hpos hlt⟩
  obtain ⟨r, hnormal, hround⟩ := hrounded.exists_isNormal
    (small_le (le_trans (by norm_num) hone)) (lt_large hhigh)
  rw [hround.eq_natCast hlt] at hnormal
  exact hnormal

/-! ## Zero -/

theorem unpack_ofNat_zero : (Float.ofModel (.ofNat 0)).toModel.unpack = .zero .positive := rfl

theorem not_isNormal_zero {f : Float} (hf : f.toModel.unpack = .zero .positive) :
    ¬ IsNormal f r := by
  intro h
  obtain ⟨m, e, hm, hbig, hunpack, hr⟩ := h
  cases hf.symm.trans hunpack

theorem unpack_zero_div {f g : Float} (hf : f.toModel.unpack = .zero .positive)
    (hg : IsNormal g y) : (f / g).toModel.unpack = .zero .positive := by
  obtain ⟨m, e, hm, hbig, hunpack, hr⟩ := hg
  change UnpackedFloat.unpack .binary64
    (pack .binary64 (div .binary64 f.toModel.unpack g.toModel.unpack)) = _
  rw [hf, hunpack]
  exact unpack_pack_zero

theorem unpack_zero_mul {f g : Float} (hf : f.toModel.unpack = .zero .positive)
    (hg : IsNormal g y) : (f * g).toModel.unpack = .zero .positive := by
  obtain ⟨m, e, hm, hbig, hunpack, hr⟩ := hg
  change UnpackedFloat.unpack .binary64
    (pack .binary64 (mul .binary64 f.toModel.unpack g.toModel.unpack)) = _
  rw [hf, hunpack]
  exact unpack_pack_zero

theorem zero_le_iff (f : Float) :
    0 ≤ f ↔ UnpackedFloat.le (.zero .positive) f.toModel.unpack = true := by
  change decide ((0 : Float).toModel ≤ f.toModel) = true ↔ _
  rw [decide_eq_true_iff]
  rfl

theorem zero_le_of_zero {f : Float} (hf : f.toModel.unpack = .zero .positive) : 0 ≤ f := by
  rw [zero_le_iff, hf]
  rfl

theorem IsNormal.zero_le {f : Float} (h : IsNormal f x) : 0 ≤ f := by
  obtain ⟨m, e, hm, hbig, hunpack, hx⟩ := h
  rw [zero_le_iff, hunpack]
  rfl

theorem toUInt64_of_zero {f : Float} (hf : f.toModel.unpack = .zero .positive) :
    f.toUInt64 = 0 := by
  rw [Float.toUInt64, Float.Model.toUInt64, hf]
  rfl

/-! ## Truncation -/

theorem Marks.floor_eq (h : Marks em t) : ⌊t⌋₊ = em.mantissa := by
  have hle := h.le
  rw [Nat.floor_eq_iff ((Nat.cast_nonneg _).trans hle)]
  exact ⟨hle, h.lt⟩

theorem roundToInt_eq (m : ℕ) (e : ℤ) :
    roundToInt .positive m e = (⌊(m : ℚ) * 2 ^ e⌋₊ : ℤ) := by
  have hvalue : (m : ℚ) * 2 ^ e = ((m <<< e.toNat : ℕ) : ℚ) / 2 ^ (-e).toNat := by
    obtain ⟨j, rfl | rfl⟩ := e.eq_nat_or_neg
    · simp [Nat.shiftLeft_eq]
    · simp [Nat.shiftLeft_eq, div_eq_mul_inv]
  have hshift : (0 - (e - (e.toNat : ℤ))).toNat = (-e).toNat := by omega
  rw [hvalue, ((marks_exact (m <<< e.toNat)).shiftRight (-e).toNat).floor_eq, roundToInt]
  simp only [decreaseExponent, shiftToExponent, sub_zero, hshift]
  rfl

theorem toNat_toUInt64 {f : Float} (h : IsNormal f x) (hx : x < 2 ^ 64) :
    f.toUInt64.toNat = ⌊x⌋₊ := by
  obtain ⟨m, e, hm, hbig, hunpack, rfl⟩ := h
  have hconvert : f.toUInt64 = UInt64.ofNatClamp ⌊(m : ℚ) * 2 ^ e⌋₊ := by
    rw [Float.toUInt64, Float.Model.toUInt64, hunpack, UnpackedFloat.toUInt64,
      UnpackedFloat.toInt, roundToInt_eq, Int.toNat_natCast]
  have hlt : ⌊(m : ℚ) * 2 ^ e⌋₊ < UInt64.size := by
    rw [Nat.floor_lt (by positivity)]
    exact_mod_cast hx
  rw [hconvert, UInt64.ofNatClamp, dif_pos hlt]
  rfl

/-- **A truncated product** is the integer `q` if the exact product is above `q`, or below it by
very little, and not too near to `q + 1`. -/
theorem toNat_toUInt64_mul {f g : Float} {q : ℕ} (hf : IsNormal f x) (hg : IsNormal g y)
    (hsmall : 1 / 2 ^ 20 ≤ x * y) (hlt : x * y < 2 ^ 53) (hlow : (q : ℚ) ≤ x * y + x * y / 2 ^ 54)
    (hhigh : x * y + x * y / 2 ^ 53 < q + 1) : 0 ≤ f * g ∧ (f * g).toUInt64.toNat = q := by
  obtain ⟨r, hnormal, hround⟩ := (isRounded_mul hf hg).exists_isNormal
    (small_le hsmall) (lt_large hlt)
  have hnear := (abs_le.1 hround.abs_sub_le).2
  refine ⟨hnormal.zero_le, ?_⟩
  rw [toNat_toUInt64 hnormal (by linarith)]
  exact hround.floor_eq hlt hlow hhigh

theorem ofNatClamp_toUInt32 {n : ℕ} (h : (UInt64.ofNatClamp n).toNat < 2 ^ 32) :
    UInt32.ofNatClamp n = (UInt64.ofNatClamp n).toUInt32 := by
  by_cases hsize : n < UInt64.size
  · have hclamp : UInt64.ofNatClamp n = UInt64.ofNatLT n hsize := dif_pos hsize
    rw [hclamp] at h ⊢
    have hlt : n < UInt32.size := h
    rw [UInt32.ofNatClamp, dif_pos hlt, ← UInt32.toNat_inj, UInt64.toNat_toUInt32]
    exact (Nat.mod_eq_of_lt hlt).symm
  · rw [UInt64.ofNatClamp, dif_neg hsize] at h
    exact absurd h (by decide)

/-- The two conversions saturate at different numbers and agree below. -/
theorem toUInt32_eq {f : Float} (h : f.toUInt64.toNat < 2 ^ 32) :
    f.toUInt32 = f.toUInt64.toUInt32 := by
  rw [Float.toUInt64, Float.Model.toUInt64] at h ⊢
  rw [Float.toUInt32, Float.Model.toUInt32]
  generalize f.toModel.unpack = u at h ⊢
  cases u with
  | infinity s =>
      cases s with
      | positive => exact absurd h (by decide)
      | negative => rfl
  | notANumber => rfl
  | zero s => rfl
  | finite s m e hm => exact ofNatClamp_toUInt32 h

/-! ## Literals -/

/-- The double is `a / b`, compared in integers. -/
def hasValue (f : Float) (a b : ℕ) : Bool :=
  match f.toModel.unpack with
  | .finite .positive m e _ => 2 ^ 52 ≤ m && m * 2 ^ e.toNat * b == a * 2 ^ (-e).toNat
  | _ => false

theorem isNormal_of_hasValue {f : Float} {a b : ℕ} (hb : 0 < b) (h : hasValue f a b = true) :
    IsNormal f (a / b) := by
  rw [hasValue] at h
  split at h
  · next m e hm hunpack =>
      rw [Bool.and_eq_true, decide_eq_true_iff, beq_iff_eq] at h
      refine ⟨m, e, hm, h.1, hunpack, ?_⟩
      have hpos : (b : ℚ) ≠ 0 := Nat.cast_ne_zero.2 hb.ne'
      have hcast : (m : ℚ) * 2 ^ e.toNat * b = a * 2 ^ (-e).toNat := by exact_mod_cast h.2
      rw [div_eq_iff hpos]
      obtain ⟨j, rfl | rfl⟩ := e.eq_nat_or_neg
      · rw [Int.toNat_natCast, Int.toNat_neg_natCast, pow_zero, mul_one] at hcast
        rw [zpow_natCast, hcast]
      · rw [neg_neg, Int.toNat_natCast, Int.toNat_neg_natCast, pow_zero, mul_one] at hcast
        rw [zpow_neg, zpow_natCast, mul_right_comm, hcast, mul_inv_cancel_right₀ (by positivity)]
  · cases h

theorem hasValue_powerOfTen : ∀ i : Fin Float.exactlyRepresentablePowersOfTen.size,
    hasValue Float.exactlyRepresentablePowersOfTen[i] (10 ^ i.val) 1 = true := by
  decide +kernel

theorem unpack_pack_infinity : UnpackedFloat.unpack .binary64
    (pack .binary64 (.infinity .positive)) = .infinity .positive := rfl

/-- The number that a decimal literal stands for. -/
def decimal (m : ℕ) (s : Bool) (e : ℕ) : ℚ := m * 10 ^ (if s then -e else e : ℤ)

theorem isRounded_ofScientific {m : ℕ} {e : ℤ}
    (hnormal : IsNormal (.ofModel (.ofScientific m e)) r) :
    IsRounded (.ofModel (.ofScientific m e)) (m * 10 ^ e) := by
  obtain ⟨c, i, hc, hbig, hunpack, -⟩ := hnormal
  refine ⟨ofScientific .binary64 m e, rfl, ?_⟩
  change UnpackedFloat.unpack .binary64 (pack .binary64 (ofScientific .binary64 m e)) = _ at hunpack
  rw [ofScientific] at hunpack ⊢
  split_ifs at hunpack ⊢ with hzero hlarge hsmall hsign
  · cases (unpack_pack_zero.symm.trans hunpack)
  · cases (unpack_pack_infinity.symm.trans hunpack)
  · cases (unpack_pack_zero.symm.trans hunpack)
  · obtain ⟨j, rfl⟩ := Int.eq_ofNat_of_zero_le hsign
    have hbits : 2 ^ 52 ≤ (m <<< 53) * 10 ^ j := by
      have hm : 1 ≤ m := Nat.pos_of_ne_zero hzero
      rw [Nat.shiftLeft_eq]
      calc 2 ^ 52 ≤ 1 * 2 ^ 53 * 1 := by norm_num
        _ ≤ m * 2 ^ 53 * 10 ^ j :=
          Nat.mul_le_mul (Nat.mul_le_mul_right _ hm) (Nat.one_le_pow _ _ (by norm_num))
    have hvalue : (m : ℚ) * (10 : ℚ) ^ (j : ℤ) =
        ((m <<< 53 : ℕ) : ℚ) * 2 ^ (-53 : ℤ) * (((10 ^ j : ℕ) : ℚ) * 2 ^ (0 : ℤ)) := by
      rw [Nat.shiftLeft_eq, zpow_zero, zpow_natCast, zpow_neg]
      push_cast
      norm_num
      ring
    rw [hvalue]
    exact rounded_mul hbits
  · obtain ⟨j, hj⟩ := Int.eq_ofNat_of_zero_le (show 0 ≤ -e by omega)
    have hvalue : (m : ℚ) * 10 ^ e =
        (m : ℚ) * 2 ^ (0 : ℤ) / (((10 ^ (-e).toNat : ℕ) : ℚ) * 2 ^ (0 : ℤ)) := by
      rw [show e = -(j : ℤ) by omega, neg_neg, Int.toNat_natCast, zpow_neg, zpow_natCast, zpow_zero]
      push_cast
      field_simp
    rw [hvalue]
    exact rounded_div

theorem toFloat_toUInt64 {m : ℕ} (hm : m < 2 ^ 53) : m.toUInt64.toFloat = .ofModel (.ofNat m) := by
  have hnat : m.toUInt64.toNat = m := Nat.mod_eq_of_lt (by omega)
  change Float.ofModel (.ofNat m.toUInt64.toNat) = _
  rw [hnat]

theorem ofScientific_roundsTo {m e : ℕ} {s : Bool} (hnormal : IsNormal (Float.ofScientific m s e) r)
    (hlow : (2 : ℚ) ^ (-1000 : ℤ) ≤ r) : RoundsTo 53 (decimal m s e) r := by
  rw [Float.ofScientific] at hnormal
  split at hnormal
  · next h =>
    obtain ⟨hm, he⟩ := h
    have hindex : e < Float.exactlyRepresentablePowersOfTen.size := Nat.lt_succ_iff.2 he
    have hten : IsNormal Float.exactlyRepresentablePowersOfTen[e] ((10 ^ e : ℕ) / (1 : ℕ)) :=
      isNormal_of_hasValue one_pos (hasValue_powerOfTen ⟨e, hindex⟩)
    rw [Nat.cast_one, div_one, Nat.cast_pow] at hten
    rw [toFloat_toUInt64 hm] at hnormal
    rcases Nat.eq_zero_or_pos m with rfl | hpos
    · cases s with
      | true => exact absurd hnormal (not_isNormal_zero (unpack_zero_div unpack_ofNat_zero hten))
      | false => exact absurd hnormal (not_isNormal_zero (unpack_zero_mul unpack_ofNat_zero hten))
    · have hinteger := isNormal_ofNat hpos hm
      cases s with
      | true =>
          have hround := (isRounded_div hinteger hten).roundsTo hnormal hlow
          rw [decimal, if_pos rfl, zpow_neg, zpow_natCast, ← div_eq_mul_inv]
          exact hround
      | false =>
          have hround := (isRounded_mul hinteger hten).roundsTo hnormal hlow
          rw [decimal, if_neg (by decide), zpow_natCast]
          exact hround
  · cases s with
    | true =>
        have hround := (isRounded_ofScientific hnormal).roundsTo hnormal hlow
        rw [if_pos rfl, Int.negOfNat_eq] at hround
        exact hround
    | false => exact (isRounded_ofScientific hnormal).roundsTo hnormal hlow

end Binary64
