import Mathlib.Algebra.Order.Field.Power
import Mathlib.Algebra.Order.Floor.Semifield
import Mathlib.Tactic.Linarith
import Mathlib.Tactic.FieldSimp
import Mathlib.Tactic.Positivity
import Mathlib.Tactic.Ring

/-!
# Rounding to nearest

`RoundsTo p x r` says that `r` is a number of `p` significant bits nearest to the positive number
`x`. Of two that are equally near it may be either one, so the results hold for any rule for ties.

* `RoundsTo.abs_sub_le`: the relative error.
* `RoundsTo.floor_eq`: an integer that `x` misses by very little below is not missed by `r`, so
  truncation after rounding gives it.
* `RoundsTo.eq_of_decimals`: decimals of few enough digits that round to the same number are equal.
-/

namespace Nearest

variable {α : Type*} [Field α] [LinearOrder α] [IsStrictOrderedRing α] {p k : ℕ} {x y r : α}

/-- `2 ^ e` is the unit of the last of the `p` leading bits of `x`, and `r` is a multiple of it, at
most half of it away. -/
def RoundsTo (p : ℕ) (x r : α) : Prop :=
  ∃ (e : ℤ) (n : ℕ), r = n * 2 ^ e ∧ |r - x| ≤ 2 ^ e / 2 ∧
    (2 : α) ^ (e + p) ≤ 2 * x ∧ x < (2 : α) ^ (e + p)

theorem zpow_add_natCast (e : ℤ) (p : ℕ) : (2 : α) ^ (e + p) = 2 ^ e * 2 ^ p := by
  rw [zpow_add₀ two_ne_zero, zpow_natCast]

namespace RoundsTo

theorem pos (h : RoundsTo p x r) : 0 < x := by
  obtain ⟨e, n, hr, herror, hlow, hhigh⟩ := h
  have hpow : (0 : α) < 2 ^ (e + p) := zpow_pos two_pos _
  linarith

theorem abs_sub_le (h : RoundsTo p x r) : |r - x| ≤ x / 2 ^ p := by
  obtain ⟨e, n, hr, herror, hlow, hhigh⟩ := h
  have hp : (0 : α) < 2 ^ p := by positivity
  refine herror.trans ?_
  rw [zpow_add_natCast] at hlow
  rw [le_div_iff₀ hp]
  linarith

theorem div_lt_half {e : ℤ} (hhigh : x < (2 : α) ^ (e + p)) : x / 2 ^ (p + 1) < 2 ^ e / 2 := by
  have hp : (0 : α) < 2 ^ (p + 1) := by positivity
  rw [zpow_add_natCast] at hhigh
  rw [div_lt_iff₀ hp, pow_succ]
  linarith

theorem exists_eq_mul {e : ℤ} (hlow : (2 : α) ^ (e + p) ≤ 2 * x) (hx : x < 2 ^ p) (q : ℕ) :
    ∃ m : ℕ, (q : α) = m * 2 ^ e := by
  have hlt : (2 : α) ^ (e + p) < 2 ^ ((1 : ℤ) + p) := by
    rw [zpow_add_natCast 1 p, zpow_one]
    linarith
  have he : e ≤ 0 := by
    have hexponents := (zpow_lt_zpow_iff_right₀ one_lt_two).1 hlt
    omega
  obtain ⟨j, hj⟩ := Int.exists_eq_neg_ofNat he
  refine ⟨q * 2 ^ j, ?_⟩
  rw [hj, zpow_neg, zpow_natCast, Nat.cast_mul, Nat.cast_pow, Nat.cast_ofNat, mul_assoc,
    mul_inv_cancel₀ (by positivity), mul_one]

/-- An integer that `x` misses by less than half a unit is not missed by `r`. -/
theorem natCast_le {q : ℕ} (h : RoundsTo p x r) (hx : x < 2 ^ p)
    (hq : (q : α) ≤ x + x / 2 ^ (p + 1)) : (q : α) ≤ r := by
  obtain ⟨e, n, hr, herror, hlow, hhigh⟩ := h
  have hunit : (0 : α) < 2 ^ e := zpow_pos two_pos e
  have hhalf := div_lt_half hhigh
  obtain ⟨m, hm⟩ := exists_eq_mul hlow hx q
  -- A multiple of the unit below `q` is a whole unit below.
  by_contra hlt
  rw [hm, hr, not_le, mul_lt_mul_iff_left₀ hunit, Nat.cast_lt] at hlt
  have hstep : (n : α) + 1 ≤ m := by exact_mod_cast hlt
  have hbelow : r + 2 ^ e ≤ q := by
    rw [hm, hr]
    nlinarith
  have hnear := (abs_le.1 herror).1
  linarith

theorem eq_natCast {q : ℕ} (h : RoundsTo p (q : α) r) (hq : q < 2 ^ p) : r = q := by
  have hx : (q : α) < 2 ^ p := by exact_mod_cast hq
  obtain ⟨e, n, hr, herror, hlow, hhigh⟩ := h
  have hunit : (0 : α) < 2 ^ e := zpow_pos two_pos e
  obtain ⟨m, hm⟩ := exists_eq_mul hlow hx q
  rw [hm, hr, ← sub_mul, abs_mul, abs_of_pos hunit] at herror
  have hclose : |(n : α) - m| < 1 := by
    by_contra hfar
    rw [not_lt] at hfar
    nlinarith
  have hint : |(n : ℤ) - m| < 1 := by exact_mod_cast hclose
  have heq : (n : ℤ) = m := by
    rw [Int.abs_lt_one_iff] at hint
    omega
  rw [hr, hm]
  exact_mod_cast congrArg (fun i : ℤ => (i : α) * 2 ^ e) heq

/-- **Truncation after rounding.** The integer part of the rounded number is `q` if `x` is above
`q`, or below it by very little, and not too near to `q + 1`. -/
theorem floor_eq [FloorSemiring α] {q : ℕ} (h : RoundsTo p x r) (hx : x < 2 ^ p)
    (hlow : (q : α) ≤ x + x / 2 ^ (p + 1)) (hhigh : x + x / 2 ^ p < q + 1) : ⌊r⌋₊ = q := by
  have hq := h.natCast_le hx hlow
  have hnear := (abs_le.1 h.abs_sub_le).2
  rw [Nat.floor_eq_iff ((Nat.cast_nonneg q).trans hq)]
  exact ⟨hq, by linarith⟩

end RoundsTo

/-! ## Decimals -/

/-- A decimal of at most `k` significant digits. -/
def IsDecimal (k : ℕ) (x : α) : Prop := ∃ (d : ℕ) (j : ℤ), d < 10 ^ k ∧ x = d * 10 ^ j

theorem zpow_eq_mul {i j : ℤ} (hle : i ≤ j) :
    ∃ t : ℕ, (10 : α) ^ j = ((10 ^ t : ℕ) : α) * 10 ^ i := by
  obtain ⟨t, rfl⟩ := Int.le.dest hle
  refine ⟨t, ?_⟩
  rw [zpow_add₀ (by norm_num), zpow_natCast, mul_comm, Nat.cast_pow, Nat.cast_ofNat]

theorem IsDecimal.exists_unit (hx : IsDecimal k x) (hy : IsDecimal k y) :
    ∃ (u : α) (a b : ℕ), 0 < u ∧ x = a * u ∧ y = b * u ∧ (a < 10 ^ k ∨ b < 10 ^ k) := by
  obtain ⟨d, i, hd, rfl⟩ := hx
  obtain ⟨c, j, hc, rfl⟩ := hy
  rcases le_total i j with hle | hle
  · obtain ⟨t, ht⟩ := zpow_eq_mul (α := α) hle
    refine ⟨10 ^ i, d, c * 10 ^ t, by positivity, rfl, ?_, Or.inl hd⟩
    rw [ht, Nat.cast_mul, mul_assoc]
  · obtain ⟨t, ht⟩ := zpow_eq_mul (α := α) hle
    refine ⟨10 ^ j, d * 10 ^ t, c, by positivity, ?_, rfl, Or.inr hc⟩
    rw [ht, Nat.cast_mul, mul_assoc]

theorem IsDecimal.lt_mul_sub (hx : IsDecimal k x) (hy : IsDecimal k y) (hlt : x < y) :
    x < 10 ^ k * (y - x) := by
  obtain ⟨u, a, b, hu, rfl, rfl, hdigits⟩ := hx.exists_unit hy
  have hab : a < b := by
    rw [mul_lt_mul_iff_left₀ hu] at hlt
    exact_mod_cast hlt
  have hstep : (a : α) + 1 ≤ b := by exact_mod_cast hab
  have hgap : u ≤ b * u - a * u := by nlinarith
  have hbound : (a : α) < 10 ^ k := by
    have hnat : a < 10 ^ k := by
      rcases hdigits with ha | hb
      · exact ha
      · exact hab.trans hb
    exact_mod_cast hnat
  calc (a : α) * u < 10 ^ k * u := mul_lt_mul_of_pos_right hbound hu
    _ ≤ 10 ^ k * (b * u - a * u) := mul_le_mul_of_nonneg_left hgap (by positivity)

namespace RoundsTo

theorem not_lt_of_decimals (hx : RoundsTo p x r) (hy : RoundsTo p y r) (hxk : IsDecimal k x)
    (hyk : IsDecimal k y) (hk : 2 * 10 ^ k < 2 ^ p) : ¬ x < y := by
  intro hlt
  have hgap := hxk.lt_mul_sub hyk hlt
  have hp : (0 : α) < 2 ^ p := by positivity
  have hk' : (2 : α) * 10 ^ k + 1 ≤ 2 ^ p := by exact_mod_cast hk
  -- Both errors together bridge the gap.
  have hbridge : y - x ≤ (x + y) / 2 ^ p := by
    have hbelow := (abs_le.1 hx.abs_sub_le).2
    have habove := (abs_le.1 hy.abs_sub_le).1
    rw [add_div]
    linarith
  rw [le_div_iff₀ hp] at hbridge
  have hwide : (y - x) * (2 * 10 ^ k + 1) ≤ (y - x) * 2 ^ p :=
    mul_le_mul_of_nonneg_left hk' (by linarith)
  linarith

/-- **Decimals survive.** Decimals of `k` digits that are rounded to the same number of `p` bits are
equal, if the `p` bits distinguish twice as many numbers as the digits. -/
theorem eq_of_decimals (hx : RoundsTo p x r) (hy : RoundsTo p y r) (hxk : IsDecimal k x)
    (hyk : IsDecimal k y) (hk : 2 * 10 ^ k < 2 ^ p) : x = y :=
  le_antisymm (not_lt.1 (not_lt_of_decimals hy hx hyk hxk hk))
    (not_lt.1 (not_lt_of_decimals hx hy hxk hyk hk))

end RoundsTo

end Nearest
