import Mathlib.Algebra.BigOperators.Fin
import NasdaqItch.Lib.WordSum
import NasdaqItch.Report
import NasdaqItch.SlotSummary
import NasdaqItch.TypicalPrice

/-!
# The printed price and the traded range

A printed price is meant to be an average, so it should lie between the lowest and the highest
price traded. The typical price of a slot is the mean of high, low and close, and that is in the
range exactly when all three are traded prices and their sum does not wrap. The low is a traded
price once some execution did not exceed the high of its moment (`dips`); until then it is
`UINT32_MAX`, and the 32-bit sum wraps.

* `typicalPrice_le`, `le_typicalPrice`: the typical price of a slot that is settled in this sense.
* `vwap_in_traded_range`: the printed price, when all slots that count are settled.
* `vwap_below_traded_range`: one trade is enough to print a price below everything traded.
-/

namespace NasdaqItch

open UnorderedMap Runs VWAPManager WordSum

/-! ## One slot -/

/-- Some price set the low, and high, that price and the last one add up without wrapping. -/
def Settled (prices : List UInt32) : Prop :=
  ∃ p ∈ dips 0 prices,
    (highestPrice prices).toNat + p.toNat + (prices.getLastD 0).toNat < 2 ^ 32

instance (prices : List UInt32) : Decidable (Settled prices) :=
  inferInstanceAs (Decidable (∃ p ∈ dips 0 prices,
    (highestPrice prices).toNat + p.toNat + (prices.getLastD 0).toNat < 2 ^ 32))

namespace VWAPFormula

variable {data : VWAPFormula} {es : List Execution} {q : Nat}

/-- In a settled slot high, low and close are prices of executions, and the sum is exact. -/
theorem Summarises.typicalPrice (h : data.Summarises es) (hs : Settled (es.map (·.price))) :
    ∃ a ∈ es, ∃ b ∈ es, ∃ c ∈ es,
      data.getTypicalPrice.toNat = (a.price.toNat + b.price.toNat + c.price.toNat) / 3 := by
  obtain ⟨p, hp, hfits⟩ := hs
  have hne : es.map (·.price) ≠ [] := List.ne_nil_of_mem (mem_of_mem_dips hp)
  have hhigh : data.high ∈ es.map (·.price) := h.high ▸ highestPrice_mem hne
  have hlow : data.low ∈ es.map (·.price) :=
    mem_of_mem_dips (h.low ▸ lowestPrice_mem (List.ne_nil_of_mem hp))
  have hclose : data.close ∈ es.map (·.price) := by
    rw [h.close, List.getLastD_eq_getLast?, List.getLast?_eq_some_getLast hne, Option.getD_some]
    exact List.getLast_mem hne
  obtain ⟨a, ha, ha'⟩ := List.mem_map.1 hhigh
  obtain ⟨b, hb, hb'⟩ := List.mem_map.1 hlow
  obtain ⟨c, hc, hc'⟩ := List.mem_map.1 hclose
  refine ⟨a, ha, b, hb, c, hc, ?_⟩
  have hle : data.low.toNat ≤ p.toNat := UInt32.le_iff_toNat_le.1 (h.low ▸ lowestPrice_le hp)
  rw [← h.high, ← h.close] at hfits
  have hsum : data.priceSum < 2 ^ 32 := by
    rw [priceSum]
    omega
  rw [ha', hb', hc', getTypicalPrice_of_fits hsum, priceSum]

theorem Summarises.le_typicalPrice (h : data.Summarises es) (hs : Settled (es.map (·.price)))
    (hq : ∀ e ∈ es, q ≤ e.price.toNat) : q ≤ data.getTypicalPrice.toNat := by
  obtain ⟨a, ha, b, hb, c, hc, heq⟩ := h.typicalPrice hs
  have := hq a ha
  have := hq b hb
  have := hq c hc
  omega

theorem Summarises.typicalPrice_le (h : data.Summarises es) (hs : Settled (es.map (·.price)))
    (hq : ∀ e ∈ es, e.price.toNat ≤ q) : data.getTypicalPrice.toNat ≤ q := by
  obtain ⟨a, ha, b, hb, c, hc, heq⟩ := h.typicalPrice hs
  have := hq a ha
  have := hq b hb
  have := hq c hc
  omega

end VWAPFormula

/-! ## All slots up to a period -/

/-- The executions in the slots up to `i`. -/
def inSlotsUpTo (i : Period) (es : List (Period × Execution)) : List Execution :=
  (es.filter (·.1 ≤ i)).map (·.2)

/-- The highest price of some executions. -/
def highestOf (es : List (Period × Execution)) : Nat :=
  (highestPrice (es.map (·.2.price))).toNat

/-- The exact volume of some executions. -/
def totalVolume (es : List (Period × Execution)) : Nat := (es.map (·.2.volume.toNat)).sum

variable {es : List (Period × Execution)} {i k : Period}

theorem mem_inSlotsUpTo_of_mem_inSlot {e : Execution} (hk : k ≤ i) (h : e ∈ inSlot k es) :
    e ∈ inSlotsUpTo i es := by
  obtain ⟨x, hx, rfl⟩ := List.mem_map.1 h
  obtain ⟨hmem, hslot⟩ := List.mem_filter.1 hx
  have : x.1 = k := by simpa using hslot
  exact List.mem_map.2 ⟨x, List.mem_filter.2 ⟨hmem, by simpa [this] using hk⟩, rfl⟩

theorem le_highestOf {e : Execution} (h : e ∈ inSlot k es) : e.price.toNat ≤ highestOf es := by
  obtain ⟨x, hx, rfl⟩ := List.mem_map.1 h
  have hmem : x.2.price ∈ es.map (·.2.price) :=
    List.mem_map.2 ⟨x, (List.mem_filter.1 hx).1, rfl⟩
  exact UInt32.le_iff_toNat_le.1 (le_highestPrice hmem)

theorem sum_inSlot_le {ks : List Period} (h : ks.Nodup) :
    (ks.map fun k => ((inSlot k es).map (·.volume.toNat)).sum).sum ≤ totalVolume es := by
  induction es with
  | nil => simp [inSlot, totalVolume]
  | cons x es ih =>
      have hone : (ks.map fun k => if x.1 = k then x.2.volume.toNat else 0).sum ≤
          x.2.volume.toNat := by
        rw [← List.sum_toFinset _ h, Finset.sum_ite_eq]
        split_ifs
        · exact Nat.le_refl _
        · exact Nat.zero_le _
      have hsplit : ∀ k, ((inSlot k (x :: es)).map (·.volume.toNat)).sum =
          (if x.1 = k then x.2.volume.toNat else 0) +
            ((inSlot k es).map (·.volume.toNat)).sum := by
        intro k
        by_cases hx : x.1 = k <;> simp [inSlot, hx]
      simp only [hsplit, List.sum_map_add]
      simp only [totalVolume, List.map_cons, List.sum_cons] at *
      omega

section Cumulative

variable {slots : PeriodicStats}
  (hsum : ∀ k, (slots k).Summarises (inSlot k es))
  (hsettled : ∀ k ≤ i, (slots k).volume ≠ 0 → Settled ((inSlot k es).map (·.price)))
  (hfits : highestOf es * totalVolume es < 2 ^ 64)

include hsum in
theorem sum_volume_le : ((periodsUpTo i).map fun k => (slots k).volume.toNat).sum ≤
    totalVolume es := by
  refine le_trans (List.sum_le_sum fun k _ => ?_) (sum_inSlot_le (nodup_periodsUpTo i))
  rw [(hsum k).volume, toNat_list_sum, List.map_map]
  exact Nat.mod_le _ _

include hsum hsettled in
theorem typicalPrice_le_of_forall {q : Nat}
    (hq : ∀ k ≤ i, ∀ e ∈ inSlot k es, e.price.toNat ≤ q) :
    ∀ k ∈ periodsUpTo i, (slots k).volume.toNat ≠ 0 → (slots k).getTypicalPrice.toNat ≤ q := by
  intro k hk hvolume
  have hne : (slots k).volume ≠ 0 := fun h => hvolume (by rw [h]; rfl)
  exact (hsum k).typicalPrice_le (hsettled k (mem_periodsUpTo.1 hk) hne)
    (hq k (mem_periodsUpTo.1 hk))

include hsum hsettled in
theorem le_typicalPrice_of_forall {q : Nat}
    (hq : ∀ k ≤ i, ∀ e ∈ inSlot k es, q ≤ e.price.toNat) :
    ∀ k ∈ periodsUpTo i, (slots k).volume.toNat ≠ 0 → q ≤ (slots k).getTypicalPrice.toNat := by
  intro k hk hvolume
  have hne : (slots k).volume ≠ 0 := fun h => hvolume (by rw [h]; rfl)
  exact (hsum k).le_typicalPrice (hsettled k (mem_periodsUpTo.1 hk) hne)
    (hq k (mem_periodsUpTo.1 hk))

include hsum hsettled in
theorem sum_pv_le : ((periodsUpTo i).map fun k =>
    (slots k).getTypicalPrice.toNat * (slots k).volume.toNat).sum ≤
      highestOf es * totalVolume es := by
  have hhigh := typicalPrice_le_of_forall hsum hsettled fun _ _ _ he => le_highestOf he
  exact le_trans (sum_mul_le hhigh) (Nat.mul_le_mul_left _ (sum_volume_le hsum))

include hsum hsettled hfits in
theorem cumulativePV_toNat : (slots.cumulativePV i).toNat =
    ((periodsUpTo i).map fun k =>
      (slots k).getTypicalPrice.toNat * (slots k).volume.toNat).sum := by
  have hle := sum_pv_le hsum hsettled
  refine toNat_sum_map (fun k hk => VWAPFormula.getPV_toNat ?_) (by omega)
  have hone := List.single_le_sum (l := (periodsUpTo i).map fun k =>
    (slots k).getTypicalPrice.toNat * (slots k).volume.toNat) (fun _ _ => Nat.zero_le _) _
    (List.mem_map.2 ⟨k, hk, rfl⟩)
  omega

include hsum in
theorem exists_of_cumulativeVolume (hvolume : slots.cumulativeVolume i ≠ 0) :
    ∃ k ≤ i, (slots k).volume ≠ 0 ∧ ∃ e, e ∈ inSlot k es := by
  by_contra hnone
  refine hvolume (List.sum_eq_zero fun x hx => ?_)
  obtain ⟨k, hk, rfl⟩ := List.mem_map.1 hx
  by_contra hne
  refine hnone ⟨k, mem_periodsUpTo.1 hk, hne, ?_⟩
  by_contra hempty
  have hnil : inSlot k es = [] :=
    List.eq_nil_iff_forall_not_mem.2 fun e he => hempty ⟨e, he⟩
  exact hne (by rw [(hsum k).volume, hnil]; rfl)

theorem cumulativeVolume_toNat : (slots.cumulativeVolume i).toNat =
    ((periodsUpTo i).map fun k => (slots k).volume.toNat).sum % 2 ^ 64 := by
  rw [PeriodicStats.cumulativeVolume, toNat_list_sum, List.map_map]
  rfl

include hsum hsettled hfits in
/-- The volume wraps only if every price is 0, and then 0 is printed. -/
theorem zero_of_volume_wraps
    (hwraps : 2 ^ 64 ≤ ((periodsUpTo i).map fun k => (slots k).volume.toNat).sum) :
    slots.cumulativePV i = 0 ∧ ∀ k, ∀ e ∈ inSlot k es, e.price = 0 := by
  have hvolume := sum_volume_le (i := i) hsum
  have hzero : highestOf es = 0 := by
    by_contra hne
    have := Nat.le_mul_of_pos_left (totalVolume es) (Nat.pos_of_ne_zero hne)
    omega
  constructor
  · have hpv := cumulativePV_toNat hsum hsettled hfits
    have hle := sum_pv_le hsum hsettled
    rw [hzero, Nat.zero_mul, Nat.le_zero] at hle
    exact UInt64.toNat.inj (hpv.trans hle)
  · intro k e he
    have hle := le_highestOf he
    rw [hzero, Nat.le_zero] at hle
    exact UInt32.toNat.inj hle

include hsum hsettled hfits in
/-- **The cumulative mean stays in the range** of the executions folded in so far. -/
theorem mean_in_range (hvolume : slots.cumulativeVolume i ≠ 0) {q : UInt32}
    (hq : q = (slots.cumulativePV i / slots.cumulativeVolume i).toUInt32) :
    (∃ e ∈ inSlotsUpTo i es, e.price ≤ q) ∧ ∃ e ∈ inSlotsUpTo i es, q ≤ e.price := by
  obtain ⟨k₀, hk₀, -, e₀, he₀⟩ := exists_of_cumulativeVolume hsum hvolume
  have hmem₀ := mem_inSlotsUpTo_of_mem_inSlot hk₀ he₀
  by_cases hwraps : 2 ^ 64 ≤ ((periodsUpTo i).map fun k => (slots k).volume.toNat).sum
  · obtain ⟨hpv, hprice⟩ := zero_of_volume_wraps hsum hsettled hfits hwraps
    have hqzero : q = e₀.price := by
      rw [hq, hpv, hprice k₀ e₀ he₀, UInt64.zero_div]
      rfl
    exact ⟨⟨e₀, hmem₀, hqzero ▸ UInt32.le_refl _⟩, ⟨e₀, hmem₀, hqzero ▸ UInt32.le_refl _⟩⟩
  · have hvol : (slots.cumulativeVolume i).toNat =
        ((periodsUpTo i).map fun k => (slots k).volume.toNat).sum :=
      cumulativeVolume_toNat.trans (Nat.mod_eq_of_lt (by omega))
    have hpos : ((periodsUpTo i).map fun k => (slots k).volume.toNat).sum ≠ 0 := by
      rw [← hvol]
      exact fun h => hvolume (UInt64.toNat.inj h)
    -- The quotient is the mean of the typical prices, which 32 bits hold.
    have hmean : (slots.cumulativePV i / slots.cumulativeVolume i).toNat =
        ((periodsUpTo i).map fun k =>
          (slots k).getTypicalPrice.toNat * (slots k).volume.toNat).sum /
        ((periodsUpTo i).map fun k => (slots k).volume.toNat).sum := by
      rw [UInt64.toNat_div, cumulativePV_toNat hsum hsettled hfits, hvol]
    have hhigh : highestOf es < 2 ^ 32 := UInt32.toNat_lt _
    have hmeanle := mean_le (typicalPrice_le_of_forall hsum hsettled
      fun _ _ _ he => le_highestOf he)
    have hqNat : q.toNat = ((periodsUpTo i).map fun k =>
          (slots k).getTypicalPrice.toNat * (slots k).volume.toNat).sum /
        ((periodsUpTo i).map fun k => (slots k).volume.toNat).sum := by
      rw [hq, UInt64.toNat_toUInt32, hmean, Nat.mod_eq_of_lt (by omega)]
    constructor
    · by_contra hnone
      have habove : ∀ k ≤ i, ∀ e ∈ inSlot k es, q.toNat + 1 ≤ e.price.toNat := by
        intro k hk e he
        have hnot : ¬ e.price ≤ q :=
          fun h => hnone ⟨e, mem_inSlotsUpTo_of_mem_inSlot hk he, h⟩
        exact UInt32.lt_iff_toNat_lt.1 (UInt32.not_le.1 hnot)
      have hle := le_mean (le_typicalPrice_of_forall hsum hsettled habove) hpos
      omega
    · by_contra hnone
      have hbelow : ∀ k ≤ i, ∀ e ∈ inSlot k es, e.price.toNat < q.toNat := by
        intro k hk e he
        have hnot : ¬ q ≤ e.price :=
          fun h => hnone ⟨e, mem_inSlotsUpTo_of_mem_inSlot hk he, h⟩
        exact UInt32.lt_iff_toNat_lt.1 (UInt32.not_le.1 hnot)
      have hle := mean_le (typicalPrice_le_of_forall hsum hsettled
        fun k hk e he => Nat.le_sub_one_of_lt (hbelow k hk e he))
      have := hbelow k₀ hk₀ e₀ he₀
      omega

end Cumulative

/-! ## The report -/

variable {b : Build} {w : World} {stream : List Message}

/-- **Reported VWAP stays inside the traded range** when every slot that counts for the line is
settled. Here `es` are the executions that the stream folded into the slots of the issue. -/
theorem vwap_in_traded_range {order : IterationOrder w.vwapManager.brokenTradeCandidates}
    {issues : ∀ stats : UnorderedMap UInt16 PeriodicStats, IterationOrder stats}
    {v : VWAPManager} {out : List (UInt16 × List (Period × Line))} {s : UInt16}
    {lines : List (Period × Line)} {line : Line}
    (hrun : processAll b World.initial stream = .ok w)
    (hout : outputBrokenTradeAdjustedVWAP b w.vwapManager order issues = .ok (v, out))
    (hs : (s, lines) ∈ out) (hline : (i, line) ∈ lines)
    (hes : es = accepted b s World.initial stream)
    (hfits : highestOf es * totalVolume es < 2 ^ 64)
    (hsettled : ∀ k ≤ i, ((inSlot k es).map (·.volume)).sum ≠ 0 →
      Settled ((inSlot k es).map (·.price))) :
    (∃ e ∈ inSlotsUpTo i es, e.price ≤ line.price) ∧
      ∃ e ∈ inSlotsUpTo i es, line.price ≤ e.price := by
  subst hes
  have hconsistent := World.consistent_initial.processAll hrun
  obtain ⟨out', hout', hmem⟩ := output_eq (b := b) hconsistent.maps order issues
  obtain ⟨-, rfl⟩ := Prod.mk.inj (Except.ok.inj (hout'.symm.trans hout))
  obtain ⟨slots, symbol, hslots, -, rfl⟩ := (hmem s lines).1 hs
  obtain ⟨hvolume, rfl⟩ := mem_reportOneIssue.1 hline
  have hsum := (summarises_run hrun s).2 slots hslots
  exact mean_in_range hsum (fun k hk hne => hsettled k hk ((hsum k).volume ▸ hne)) hfits hvolume rfl

/-- Two trades of issue 1 at 10:00, the second one lower. -/
def fallingStream : List Message :=
  [startsTrading 1 (clock 9 0), trade 1 (clock 10 0) 100 1 1, trade 1 (clock 10 1) 95 1 2]

/-- For the trades at 100 and at 95, a price between the two is printed. -/
theorem vwap_in_traded_range_falling :
    ∃ v out lines line,
      outputBrokenTradeAdjustedVWAP .release (World.after .release fallingStream).vwapManager
        (.any _) (fun _ => .any _) = .ok (v, out) ∧ (1, lines) ∈ out ∧ (1, line) ∈ lines ∧
      (∃ e ∈ inSlotsUpTo 1 (accepted .release 1 World.initial fallingStream),
        e.price ≤ line.price) ∧
      ∃ e ∈ inSlotsUpTo 1 (accepted .release 1 World.initial fallingStream),
        line.price ≤ e.price := by
  have hrun := processAll_after (b := .release) fallingStream (by decide)
  obtain ⟨v, out, hout, hmem⟩ := output_mem (b := .release)
    (World.consistent_initial.processAll hrun).maps (.any _) (fun _ => .any _) 1 [65]
    [(1, ⟨[65], 96⟩), (2, ⟨[65], 96⟩), (3, ⟨[65], 96⟩), (4, ⟨[65], 96⟩), (5, ⟨[65], 96⟩),
      (6, ⟨[65], 96⟩)] (by decide) (by decide)
  exact ⟨v, out, _, ⟨[65], 96⟩, hout, hmem, by decide, vwap_in_traded_range hrun hout hmem
    (by decide) rfl (by decide) (by decide)⟩

/-- One share of issue 1 traded at 100. -/
def oneTradeStream : List Message :=
  [startsTrading 1 (clock 9 0), trade 1 (clock 10 0) 100 1 1]

/-- For a single share traded at 100 the printed price is 66. -/
theorem vwap_below_traded_range :
    processAll .release World.initial oneTradeStream = .ok (World.after .release oneTradeStream) ∧
      (∃ v out lines,
        outputBrokenTradeAdjustedVWAP .release (World.after .release oneTradeStream).vwapManager
          (.any _) (fun _ => .any _) = .ok (v, out) ∧ (1, lines) ∈ out ∧
        (1, ⟨[65], 66⟩) ∈ lines) ∧
      highestOf (accepted .release 1 World.initial oneTradeStream) *
        totalVolume (accepted .release 1 World.initial oneTradeStream) < 2 ^ 64 ∧
      ¬ ∃ e ∈ inSlotsUpTo 1 (accepted .release 1 World.initial oneTradeStream), e.price ≤ 66 := by
  have hrun := processAll_after (b := .release) oneTradeStream (by decide)
  obtain ⟨v, out, hout, hmem⟩ := output_mem (b := .release)
    (World.consistent_initial.processAll hrun).maps (.any _) (fun _ => .any _) 1 [65]
    [(1, ⟨[65], 66⟩), (2, ⟨[65], 66⟩), (3, ⟨[65], 66⟩), (4, ⟨[65], 66⟩), (5, ⟨[65], 66⟩),
      (6, ⟨[65], 66⟩)] (by decide) (by decide)
  exact ⟨hrun, ⟨v, out, _, hout, hmem, by decide⟩, by decide, by decide⟩

end NasdaqItch
