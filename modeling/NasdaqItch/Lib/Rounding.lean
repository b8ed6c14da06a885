import Mathlib.Algebra.Order.Floor.Semifield
import Mathlib.Algebra.Order.Round
import Mathlib.Data.Nat.Cast.Order.Field
import Mathlib.Tactic.Linarith

/-!
# Truncated bounds and rounded quotients

Programs compare with bounds that they have truncated to an integer, and round quotients that they
have already truncated. When is that what the exact numbers would give?

* `outside_floor_iff`: the test that a number lies outside an interval, with both ends truncated.
  The lower end may be truncated, the upper end lets in the numbers less than one below it.
* `round_div_eq_iff`: a truncated quotient is the nearest integer if the remainder is less than
  half the divisor.
-/

namespace Rounding

variable {α : Type*} [Field α] [LinearOrder α] [IsStrictOrderedRing α]

section Bounds

variable [FloorSemiring α] {x lower upper : α} {n : ℕ}

theorem floor_le_iff (hx : 0 ≤ x) : ⌊x⌋₊ ≤ n ↔ x - 1 < n := by
  rw [← Nat.lt_succ_iff, Nat.floor_lt hx, Nat.cast_succ]
  exact sub_lt_iff_lt_add.symm

/-- **Truncated bounds.** The test for numbers outside an interval is exact but for those above
the lower end and less than one below the upper end. -/
theorem outside_floor_iff (hlower : 0 ≤ lower) (hupper : 0 ≤ upper) :
    (n ≤ ⌊lower⌋₊ ∨ ⌊upper⌋₊ ≤ n ↔ (n : α) ≤ lower ∨ upper ≤ n) ↔
      ¬ (lower < n ∧ upper - 1 < n ∧ (n : α) < upper) := by
  rw [Nat.le_floor_iff hlower, floor_le_iff hupper]
  constructor
  · intro h hinside
    obtain ⟨habove, hnear, hbelow⟩ := hinside
    rcases h.1 (Or.inr hnear) with hle | hle
    · exact not_lt.2 hle habove
    · exact not_lt.2 hle hbelow
  · intro h
    constructor
    · intro hout
      by_contra hinside
      rw [not_or, not_le, not_le] at hinside
      exact h ⟨hinside.1, hout.resolve_left (not_le.2 hinside.1), hinside.2⟩
    · intro hout
      exact hout.imp_right fun hle => lt_of_lt_of_le (sub_one_lt upper) hle

end Bounds

section Quotients

variable [FloorRing α] {a b : ℕ}

/-- **Truncating instead of rounding** a quotient. -/
theorem round_div_eq_iff (hb : 0 < b) :
    round ((a : α) / b) = ((a / b : ℕ) : ℤ) ↔ 2 * (a % b) < b := by
  have hpos : (0 : α) < b := Nat.cast_pos.2 hb
  have hdivmod : (a : α) = ((a / b : ℕ) : α) * b + ((a % b : ℕ) : α) := by
    exact_mod_cast (Nat.div_add_mod' a b).symm
  have hsplit : (a : α) / b = ((a / b : ℕ) : α) + ((a % b : ℕ) : α) / b :=
    calc (a : α) / b = (((a / b : ℕ) : α) * b + ((a % b : ℕ) : α)) / b :=
          congrArg (· / (b : α)) hdivmod
      _ = ((a / b : ℕ) : α) + ((a % b : ℕ) : α) / b := by
        rw [add_div, mul_div_cancel_right₀ _ hpos.ne']
  have hfraction : (0 : α) ≤ ((a % b : ℕ) : α) / b := div_nonneg (Nat.cast_nonneg _) hpos.le
  have hhalf : ((a % b : ℕ) : α) / b < 1 / 2 ↔ 2 * (a % b) < b := by
    rw [div_lt_div_iff₀ hpos two_pos, one_mul, mul_comm]
    exact_mod_cast Iff.rfl
  rw [round_eq_iff, Set.mem_Ico, hsplit, Int.cast_natCast, ← hhalf]
  constructor
  · intro h
    linarith [h.2]
  · intro h
    constructor <;> linarith

theorem div_le_round_div (a b : ℕ) : ((a / b : ℕ) : ℤ) ≤ round ((a : α) / b) := by
  rw [round_eq, Int.le_floor, Int.cast_natCast]
  have hle : ((a / b : ℕ) : α) ≤ (a : α) / b := Nat.cast_div_le
  linarith

end Quotients

end Rounding
