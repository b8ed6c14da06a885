import Mathlib.Algebra.Order.BigOperators.Group.Finset
import Mathlib.Data.Fintype.BigOperators
import NasdaqItch.Lib.WordSum
import NasdaqItch.Report

/-!
# The arithmetic of the report

Prices have 32 bits. As long as the volumes of an issue add up to less than `2 ^ 32`, the 64-bit
products and sums of the report are therefore exact (`sum_pv_toNat`), and what is printed is the
floored mean of the typical prices, weighted by the volumes, which is a 32-bit number again
(`cumulative_vwap_exact`).
-/

namespace NasdaqItch

open UnorderedMap Runs VWAPManager WordSum

namespace PeriodicStats

/-- The price-volume of some slots, as a number. -/
def exactPV (slots : PeriodicStats) (ks : List Period) : Nat :=
  (ks.map fun k => (slots k).getTypicalPrice.toNat * (slots k).volume.toNat).sum

/-- The volume of some slots, as a number. -/
def exactVolume (slots : PeriodicStats) (ks : List Period) : Nat :=
  (ks.map fun k => (slots k).volume.toNat).sum

/-- The report of these slots computes with exact numbers. -/
structure ReportedExactly (slots : PeriodicStats) (symbol : Bytes) : Prop where
  /-- No product wraps. -/
  product : ∀ k, (slots k).getPV.toNat =
    (slots k).getTypicalPrice.toNat * (slots k).volume.toNat
  /-- What the accumulators hold when the loop has gone through the first periods. -/
  accumulators : ∀ ks is, List.finRange numberOfPeriodsPerDay = ks ++ is →
    ∃ cumulativePV cumulativeVolume, reportOneIssue symbol slots =
        reportLoop symbol slots ks 0 0 ++
          reportLoop symbol slots is cumulativePV cumulativeVolume ∧
      cumulativePV.toNat = slots.exactPV ks ∧ cumulativeVolume.toNat = slots.exactVolume ks
  printed : ∀ i, (∃ line, (i, line) ∈ reportOneIssue symbol slots) ↔
    ∃ j ≤ i, (slots j).volume ≠ 0
  /-- A symbol in one file is in every later file. -/
  later : ∀ i j line, i ≤ j → (i, line) ∈ reportOneIssue symbol slots →
    ∃ line', (j, line') ∈ reportOneIssue symbol slots
  /-- The floor of the exact quotient. -/
  price : ∀ i line, (i, line) ∈ reportOneIssue symbol slots →
    line.price.toNat = slots.exactPV (periodsUpTo i) / slots.exactVolume (periodsUpTo i)
  /-- The conversion to 32 bits keeps the quotient. -/
  narrowed : ∀ i line, (i, line) ∈ reportOneIssue symbol slots →
    line.price.toUInt64 = slots.cumulativePV i / slots.cumulativeVolume i
  least : ∀ i line, (i, line) ∈ reportOneIssue symbol slots →
    ∃ j ≤ i, (slots j).volume ≠ 0 ∧ (slots j).getTypicalPrice ≤ line.price
  greatest : ∀ i line, (i, line) ∈ reportOneIssue symbol slots →
    ∃ j ≤ i, (slots j).volume ≠ 0 ∧ line.price ≤ (slots j).getTypicalPrice

/-! ## No sum wraps -/

section Exact

variable {slots : PeriodicStats} {ks : List Period} {i j : Period} {symbol : Bytes} {line : Line}
  (hfits : ∑ k, (slots k).volume.toNat < 2 ^ 32)

include hfits in
theorem exactVolume_lt (hks : ks.Nodup) : slots.exactVolume ks < 2 ^ 32 := by
  refine Nat.lt_of_le_of_lt ?_ hfits
  rw [exactVolume, ← List.sum_toFinset _ hks]
  exact Finset.sum_le_sum_of_subset (Finset.subset_univ _)

include hfits in
theorem exactPV_lt (hks : ks.Nodup) : slots.exactPV ks < 2 ^ 64 := by
  have hprice : ∀ k ∈ ks, (slots k).volume.toNat ≠ 0 →
      (slots k).getTypicalPrice.toNat ≤ 2 ^ 32 - 1 :=
    fun k _ _ => Nat.le_sub_one_of_lt (UInt32.toNat_lt _)
  have hle : slots.exactPV ks ≤ (2 ^ 32 - 1) * slots.exactVolume ks := sum_mul_le hprice
  have hlt := exactVolume_lt hfits hks
  omega

include hfits in
theorem getPV_eq (k : Period) : (slots k).getPV.toNat =
    (slots k).getTypicalPrice.toNat * (slots k).volume.toNat := by
  have hone := exactPV_lt hfits (List.nodup_singleton k)
  rw [exactPV, List.map_singleton, List.sum_singleton] at hone
  exact VWAPFormula.getPV_toNat hone

include hfits in
theorem sum_pv_toNat (hks : ks.Nodup) :
    (ks.map fun k => (slots k).getPV).sum.toNat = slots.exactPV ks :=
  toNat_sum_map (fun k _ => getPV_eq hfits k) (exactPV_lt hfits hks)

include hfits in
theorem sum_volume_toNat (hks : ks.Nodup) :
    (ks.map fun k => (slots k).volume).sum.toNat = slots.exactVolume ks :=
  toNat_sum_map (fun _ _ => rfl)
    (Nat.lt_trans (exactVolume_lt hfits hks) (Nat.pow_lt_pow_right (by decide) (by decide)))

theorem volume_toNat_eq_zero : (slots j).volume.toNat = 0 ↔ (slots j).volume = 0 :=
  ⟨fun h => UInt64.toNat.inj h, fun h => by rw [h]; rfl⟩

theorem exactVolume_ne_zero : slots.exactVolume (periodsUpTo i) ≠ 0 ↔
    ∃ j ≤ i, (slots j).volume ≠ 0 := by
  rw [exactVolume, Ne, List.sum_eq_zero_iff]
  constructor
  · intro h
    by_contra hnone
    refine h fun x hx => ?_
    obtain ⟨j, hj, rfl⟩ := List.mem_map.1 hx
    by_contra hne
    exact hnone ⟨j, mem_periodsUpTo.1 hj, fun hv => hne (volume_toNat_eq_zero.2 hv)⟩
  · intro h hall
    obtain ⟨j, hj, hvolume⟩ := h
    exact hvolume (volume_toNat_eq_zero.1
      (hall _ (List.mem_map.2 ⟨j, mem_periodsUpTo.2 hj, rfl⟩)))

include hfits in
theorem cumulativeVolume_ne_zero : slots.cumulativeVolume i ≠ 0 ↔
    ∃ j ≤ i, (slots j).volume ≠ 0 := by
  rw [← exactVolume_ne_zero, ← sum_volume_toNat hfits (nodup_periodsUpTo i)]
  constructor
  · intro h hzero
    exact h (UInt64.toNat.inj hzero)
  · intro h hzero
    refine h ?_
    show (slots.cumulativeVolume i).toNat = 0
    rw [hzero]
    rfl

/-! ## The quotient -/

include hfits in
theorem quotient_toNat (i : Period) : (slots.cumulativePV i / slots.cumulativeVolume i).toNat =
    slots.exactPV (periodsUpTo i) / slots.exactVolume (periodsUpTo i) := by
  rw [UInt64.toNat_div, ← sum_pv_toNat hfits (nodup_periodsUpTo i),
    ← sum_volume_toNat hfits (nodup_periodsUpTo i)]
  rfl

include hfits in
theorem quotient_lt (i : Period) :
    (slots.cumulativePV i / slots.cumulativeVolume i).toNat < 2 ^ 32 := by
  have hmean : slots.exactPV (periodsUpTo i) / slots.exactVolume (periodsUpTo i) ≤ 2 ^ 32 - 1 :=
    mean_le fun k _ _ => Nat.le_sub_one_of_lt (UInt32.toNat_lt _)
  rw [quotient_toNat hfits]
  omega

include hfits in
theorem price_toNat (h : (i, line) ∈ reportOneIssue symbol slots) :
    line.price.toNat = slots.exactPV (periodsUpTo i) / slots.exactVolume (periodsUpTo i) := by
  obtain ⟨-, rfl⟩ := mem_reportOneIssue.1 h
  rw [UInt64.toNat_toUInt32, Nat.mod_eq_of_lt (quotient_lt hfits i), quotient_toNat hfits]

include hfits in
theorem exists_le_price (h : (i, line) ∈ reportOneIssue symbol slots) :
    ∃ j ≤ i, (slots j).volume ≠ 0 ∧ (slots j).getTypicalPrice ≤ line.price := by
  have hprice := price_toNat hfits h
  have hvolume : slots.exactVolume (periodsUpTo i) ≠ 0 :=
    exactVolume_ne_zero.2 ((cumulativeVolume_ne_zero hfits).1 (mem_reportOneIssue.1 h).1)
  by_contra hnone
  have habove : ∀ k ∈ periodsUpTo i, (slots k).volume.toNat ≠ 0 →
      line.price.toNat + 1 ≤ (slots k).getTypicalPrice.toNat := by
    intro k hk hne
    by_contra hle
    refine hnone ⟨k, mem_periodsUpTo.1 hk, fun hv => hne (volume_toNat_eq_zero.2 hv), ?_⟩
    exact UInt32.le_iff_toNat_le.2 (Nat.le_of_lt_succ (Nat.lt_of_not_le hle))
  have hmean : line.price.toNat + 1 ≤
      slots.exactPV (periodsUpTo i) / slots.exactVolume (periodsUpTo i) := le_mean habove hvolume
  omega

include hfits in
theorem exists_price_le (h : (i, line) ∈ reportOneIssue symbol slots) :
    ∃ j ≤ i, (slots j).volume ≠ 0 ∧ line.price ≤ (slots j).getTypicalPrice := by
  have hprice := price_toNat hfits h
  obtain ⟨j, hj, hvolume⟩ := (cumulativeVolume_ne_zero hfits).1 (mem_reportOneIssue.1 h).1
  by_contra hnone
  have hbelow : ∀ k ∈ periodsUpTo i, (slots k).volume.toNat ≠ 0 →
      (slots k).getTypicalPrice.toNat < line.price.toNat := by
    intro k hk hne
    by_contra hle
    refine hnone ⟨k, mem_periodsUpTo.1 hk, fun hv => hne (volume_toNat_eq_zero.2 hv), ?_⟩
    exact UInt32.le_iff_toNat_le.2 (Nat.le_of_not_lt hle)
  have hmean : slots.exactPV (periodsUpTo i) / slots.exactVolume (periodsUpTo i) ≤
      line.price.toNat - 1 := mean_le fun k hk hne => Nat.le_sub_one_of_lt (hbelow k hk hne)
  have hpos := hbelow j (mem_periodsUpTo.2 hj) fun hzero => hvolume (volume_toNat_eq_zero.1 hzero)
  omega

end Exact

end PeriodicStats

open PeriodicStats in
/-- **The cumulative VWAP arithmetic is exact** for volumes that add up to less than `2 ^ 32`,
whatever the prices in the slots are. -/
theorem cumulative_vwap_exact {slots : PeriodicStats}
    (hfits : ∑ k, (slots k).volume.toNat < 2 ^ 32) (symbol : Bytes) :
    slots.ReportedExactly symbol := by
  have hprinted : ∀ i, (∃ line, (i, line) ∈ reportOneIssue symbol slots) ↔
      ∃ j ≤ i, (slots j).volume ≠ 0 := by
    intro i
    rw [← cumulativeVolume_ne_zero hfits]
    exact ⟨fun ⟨line, h⟩ => (mem_reportOneIssue.1 h).1,
      fun h => ⟨_, mem_reportOneIssue.2 ⟨h, rfl⟩⟩⟩
  constructor
  case product => exact getPV_eq hfits
  case accumulators =>
    intro ks is hsplit
    have hks : ks.Nodup := by
      have h := List.nodup_finRange numberOfPeriodsPerDay
      rw [hsplit] at h
      exact (List.nodup_append.1 h).1
    refine ⟨_, _, ?_, sum_pv_toNat hfits hks, sum_volume_toNat hfits hks⟩
    rw [reportOneIssue, hsplit, reportLoop_append, zero_add, zero_add]
  case printed => exact hprinted
  case later =>
    intro i j line hij h
    obtain ⟨k, hk, hvolume⟩ := (hprinted i).1 ⟨line, h⟩
    exact (hprinted j).2 ⟨k, le_trans hk hij, hvolume⟩
  case price => exact fun i line h => price_toNat hfits h
  case narrowed =>
    intro i line h
    obtain ⟨-, rfl⟩ := mem_reportOneIssue.1 h
    apply UInt64.toNat.inj
    rw [UInt32.toNat_toUInt64, UInt64.toNat_toUInt32, Nat.mod_eq_of_lt (quotient_lt hfits i)]
  case least => exact fun i line h => exists_le_price hfits h
  case greatest => exact fun i line h => exists_price_le hfits h

/-- Nothing in the first hour, then two slots, with products that need 64 bits. -/
def unevenSlots : PeriodicStats := fun k =>
  if k.val = 1 then { high := 4000000000, low := 10, close := 100, volume := 4000000000 }
  else if k.val = 4 then { high := 900, low := 800, close := 850, volume := 7 }
  else {}

theorem cumulative_vwap_exact_uneven : unevenSlots.ReportedExactly [65] :=
  cumulative_vwap_exact (by decide) [65]

end NasdaqItch
