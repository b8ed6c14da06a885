import Mathlib.Algebra.BigOperators.Ring.Multiset
import Mathlib.Algebra.BigOperators.Ring.List
import Mathlib.Algebra.Order.Group.Nat
import Mathlib.Algebra.Order.BigOperators.Group.List
import Mathlib.Data.UInt

/-!
# Sums of machine words, and weighted means

A sum of 64-bit words is the exact sum modulo `2 ^ 64`. The mean of some values, weighted and
rounded down, stays within any bounds that hold for the values of positive weight.
-/

namespace WordSum

/-! ## Sums of words -/

theorem toNat_sum (S : Multiset UInt64) : S.sum.toNat = (S.map UInt64.toNat).sum % 2 ^ 64 := by
  induction S using Multiset.induction_on with
  | empty => rfl
  | cons x S ih =>
      rw [Multiset.sum_cons, UInt64.toNat_add, ih, Multiset.map_cons, Multiset.sum_cons,
        Nat.add_mod_mod]

theorem toNat_list_sum (l : List UInt64) : l.sum.toNat = (l.map UInt64.toNat).sum % 2 ^ 64 := by
  have h := toNat_sum (l : Multiset UInt64)
  rwa [Multiset.sum_coe, Multiset.map_coe, Multiset.sum_coe] at h

theorem toNat_sum_map {α : Type*} {l : List α} {f : α → UInt64} {g : α → Nat}
    (hfg : ∀ x ∈ l, (f x).toNat = g x) (hfits : (l.map g).sum < 2 ^ 64) :
    (l.map f).sum.toNat = (l.map g).sum := by
  have hexact : (l.map f).map UInt64.toNat = l.map g := by
    rw [List.map_map]
    exact List.map_congr_left hfg
  rw [toNat_list_sum, hexact, Nat.mod_eq_of_lt hfits]

/-! ## Weighted means -/

section Mean

variable {α : Type*} {l : List α} {w f : α → Nat} {q : Nat}

theorem mul_sum_le (h : ∀ x ∈ l, w x ≠ 0 → q ≤ f x) :
    q * (l.map w).sum ≤ (l.map fun x => f x * w x).sum := by
  rw [← List.sum_map_mul_left]
  refine List.sum_le_sum fun x hx => ?_
  by_cases hw : w x = 0
  · simp [hw]
  · exact Nat.mul_le_mul_right _ (h x hx hw)

theorem sum_mul_le (h : ∀ x ∈ l, w x ≠ 0 → f x ≤ q) :
    (l.map fun x => f x * w x).sum ≤ q * (l.map w).sum := by
  rw [← List.sum_map_mul_left]
  refine List.sum_le_sum fun x hx => ?_
  by_cases hw : w x = 0
  · simp [hw]
  · exact Nat.mul_le_mul_right _ (h x hx hw)

theorem le_mean (h : ∀ x ∈ l, w x ≠ 0 → q ≤ f x) (hpos : (l.map w).sum ≠ 0) :
    q ≤ (l.map fun x => f x * w x).sum / (l.map w).sum :=
  (Nat.le_div_iff_mul_le (Nat.pos_of_ne_zero hpos)).2 (mul_sum_le h)

theorem mean_le (h : ∀ x ∈ l, w x ≠ 0 → f x ≤ q) :
    (l.map fun x => f x * w x).sum / (l.map w).sum ≤ q :=
  Nat.div_le_of_le_mul (Nat.mul_comm .. ▸ sum_mul_le h)

end Mean

end WordSum
