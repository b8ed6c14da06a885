import NasdaqItch.SlotSummary

/-!
# Slot statistics

A slot is meant to hold the highest and the lowest price of the executions it accepted, the last
one's price and time, and their volume (`IsSummaryOf`). All of it is right after every sequence
of executions except the low: the first execution accepted is a new high, unless its price is 0,
and so is not compared with the low. Its price is in the low only if a later execution brings a
price that is not above it (`SetsLow`).

* `Summarises.isSummaryOf_iff`: a slot is a summary exactly if its low was set.
* `slot_statistics_iff`: so it is after every sequence of calls.
* `slot_statistics_run_iff`: and after every stream.
-/

namespace NasdaqItch

open UnorderedMap Runs VWAPManager

/-- The statistics of the executions `es`, in the order in which they were accepted. -/
structure VWAPFormula.IsSummaryOf (data : VWAPFormula) (es : List Execution) : Prop where
  high_le : ∀ e ∈ es, e.price ≤ data.high
  high_mem : ∃ e ∈ es, data.high = e.price
  le_low : ∀ e ∈ es, data.low ≤ e.price
  low_mem : ∃ e ∈ es, data.low = e.price
  last : ∀ e ∈ es.getLast?, data.close = e.price ∧ data.closingTimestamp = e.timestamp
  /-- A sum of machine words: modulo `2 ^ 64`. -/
  volume : data.volume = (es.map (·.volume)).sum
  ordered : data.low ≤ data.close ∧ data.close ≤ data.high

/-- The first price is 0 or `UINT32_MAX`, or some later one is not above it. -/
def SetsLow : List UInt32 → Prop
  | [] => False
  | p :: prices => p = 0 ∨ p = uint32Max ∨ ∃ q ∈ prices, q ≤ p

instance : DecidablePred SetsLow
  | [] => inferInstanceAs (Decidable False)
  | p :: prices => inferInstanceAs (Decidable (p = 0 ∨ p = uint32Max ∨ ∃ q ∈ prices, q ≤ p))

/-! ## The low -/

section Low

variable {prices : List UInt32} {p q high : UInt32}

theorem le_uint32Max (p : UInt32) : p ≤ uint32Max :=
  UInt32.le_iff_toNat_le.2 (Nat.le_sub_one_of_lt (UInt32.toNat_lt p))

theorem mem_dips (h : q ∈ prices) (hle : q ≤ high) : q ∈ dips high prices := by
  induction prices generalizing high with
  | nil => exact absurd h List.not_mem_nil
  | cons p prices ih =>
      rw [dips]
      rcases List.mem_cons.1 h with rfl | h
      · rw [if_neg (UInt32.not_lt.2 hle)]
        exact List.mem_cons_self
      · split_ifs with hp
        · exact ih h (UInt32.le_trans hle (UInt32.le_of_lt hp))
        · exact List.mem_cons_of_mem _ (ih h hle)

theorem dips_cons (hp : p ≠ 0) : dips 0 (p :: prices) = dips p prices := by
  have hpos : p > 0 := UInt32.pos_iff_ne_zero.2 hp
  rw [dips, if_pos hpos]

theorem lowestPrice_dips_of_later (hq : q ∈ prices) (hqp : q ≤ p) :
    (∀ x ∈ p :: prices, lowestPrice (dips p prices) ≤ x) ∧
      lowestPrice (dips p prices) ∈ p :: prices := by
  have hdip : q ∈ dips p prices := mem_dips hq hqp
  have hlow : lowestPrice (dips p prices) ≤ p := UInt32.le_trans (lowestPrice_le hdip) hqp
  have hmem := mem_of_mem_dips (lowestPrice_mem (List.ne_nil_of_mem hdip))
  refine ⟨fun x hx => ?_, List.mem_cons_of_mem _ hmem⟩
  rcases List.mem_cons.1 hx with rfl | hx
  · exact hlow
  · rcases UInt32.le_total x p with hxp | hpx
    · exact lowestPrice_le (mem_dips hx hxp)
    · exact UInt32.le_trans hlow hpx

/-- The low that a slot keeps is the lowest price exactly if the low was set. -/
theorem lowestPrice_dips_iff (hne : prices ≠ []) :
    ((∀ q ∈ prices, lowestPrice (dips 0 prices) ≤ q) ∧ lowestPrice (dips 0 prices) ∈ prices) ↔
      SetsLow prices := by
  obtain ⟨p, prices, rfl⟩ := List.exists_cons_of_ne_nil hne
  constructor
  · intro h
    obtain ⟨hle, hmem⟩ := h
    by_contra hnot
    simp only [SetsLow, not_or, not_exists, not_and] at hnot
    obtain ⟨hzero, hmax, hlater⟩ := hnot
    have hlow := hle p List.mem_cons_self
    rw [dips_cons hzero] at hlow
    -- What set the low is a later price, or nothing did.
    by_cases hnil : dips p prices = []
    · rw [hnil] at hlow
      exact hmax (UInt32.le_antisymm (le_uint32Max p) hlow)
    · exact hlater _ (mem_of_mem_dips (lowestPrice_mem hnil)) hlow
  · intro h
    by_cases hzero : p = 0
    · subst hzero
      have hdip : (0 : UInt32) ∈ dips 0 (0 :: prices) :=
        mem_dips List.mem_cons_self (UInt32.le_refl 0)
      have hlow : lowestPrice (dips 0 (0 :: prices)) ≤ 0 := lowestPrice_le hdip
      exact ⟨fun q _ => UInt32.le_trans hlow UInt32.zero_le,
        mem_of_mem_dips (lowestPrice_mem (List.ne_nil_of_mem hdip))⟩
    · rw [dips_cons hzero]
      by_cases hlater : ∃ q ∈ prices, q ≤ p
      · obtain ⟨q, hq, hqp⟩ := hlater
        exact lowestPrice_dips_of_later hq hqp
      · -- A single price, or higher ones after it; nothing is higher than `UINT32_MAX`.
        have hmax : p = uint32Max := by
          rcases h with h | h | h
          · exact absurd h hzero
          · exact h
          · exact absurd h hlater
        have hnil : prices = [] := by
          refine List.eq_nil_iff_forall_not_mem.2 fun q hq => hlater ⟨q, hq, ?_⟩
          rw [hmax]
          exact le_uint32Max q
        subst hnil hmax
        exact ⟨fun q hq => UInt32.le_of_eq (List.mem_singleton.1 hq).symm, List.mem_cons_self⟩

end Low

/-! ## One slot -/

namespace VWAPFormula

variable {data : VWAPFormula} {es : List Execution}

/-- The executions that a slot accepts, of those that are filed into it. -/
def acceptedFrom : VWAPFormula → List Execution → List Execution
  | _, [] => []
  | data, e :: es =>
      if data.withholds e then acceptedFrom (data.file e) es
      else e :: acceptedFrom (data.file e) es

theorem Summarises.run {past : List Execution} (h : data.Summarises past) :
    (es.foldl VWAPFormula.file data).Summarises (past ++ acceptedFrom data es) := by
  induction es generalizing data past with
  | nil => simpa [acceptedFrom] using h
  | cons e es ih =>
      have hrest := ih (h.file e)
      rw [List.foldl_cons, acceptedFrom]
      split_ifs with hw
      · simpa [hw] using hrest
      · simpa [hw] using hrest

/-- **When a slot is a summary** of what it accepted: exactly if its low was set. -/
theorem Summarises.isSummaryOf_iff (h : data.Summarises es) (hne : es ≠ []) :
    data.IsSummaryOf es ↔ SetsLow (es.map (·.price)) := by
  have hprices : es.map (·.price) ≠ [] := fun hnil => hne (List.map_eq_nil_iff.1 hnil)
  rw [← lowestPrice_dips_iff hprices, ← h.low]
  constructor
  · intro hsummary
    obtain ⟨e, he, hlow⟩ := hsummary.low_mem
    refine ⟨fun q hq => ?_, List.mem_map.2 ⟨e, he, hlow.symm⟩⟩
    obtain ⟨e', he', rfl⟩ := List.mem_map.1 hq
    exact hsummary.le_low e' he'
  · intro hlow
    obtain ⟨hle, hmem⟩ := hlow
    obtain ⟨e, he, hlow⟩ := List.mem_map.1 hmem
    obtain ⟨e', he', hhigh⟩ := List.mem_map.1 (h.high ▸ highestPrice_mem hprices)
    have hclose : data.close = (es.getLast hne).price := by
      rw [h.close, List.getLastD_eq_getLast?, List.getLast?_map,
        List.getLast?_eq_some_getLast hne]
      rfl
    have htime : data.closingTimestamp = (es.getLast hne).timestamp := by
      rw [h.closingTimestamp, List.getLastD_eq_getLast?, List.getLast?_map,
        List.getLast?_eq_some_getLast hne]
      rfl
    have hlast : (es.getLast hne).price ∈ es.map (·.price) :=
      List.mem_map.2 ⟨_, List.getLast_mem hne, rfl⟩
    constructor
    case high_le => exact fun e he => h.high ▸ le_highestPrice (List.mem_map.2 ⟨e, he, rfl⟩)
    case high_mem => exact ⟨e', he', hhigh.symm⟩
    case le_low => exact fun e he => hle _ (List.mem_map.2 ⟨e, he, rfl⟩)
    case low_mem => exact ⟨e, he, hlow.symm⟩
    case last =>
      intro e he
      rw [List.getLast?_eq_some_getLast hne] at he
      obtain rfl := Option.some.inj he
      exact ⟨hclose, htime⟩
    case volume => exact h.volume
    case ordered => exact hclose ▸ ⟨hle _ hlast, h.high ▸ le_highestPrice hlast⟩

end VWAPFormula

/-! ## Any sequence of calls -/

/-- One call of `_handleOrderOrTradeExecuted`: `currentPeriod` at that moment, and the
arguments. -/
abbrev Call := UInt8 × Execution

def handleCall (v : VWAPManager) (c : Call) : Except Fault VWAPManager :=
  v.handleOrderOrTradeExecuted c.1 c.2

/-- The executions that the calls file into slot `k` of issue `s`. -/
def filedInto (s : UInt16) (k : Period) (calls : List Call) : List Execution :=
  (calls.filter fun c => c.2.stockLocate = s ∧ c.1.toNat = (k : Nat)).map (·.2)

section Calls

variable {v v' : VWAPManager} {c : Call} {calls : List Call} {s : UInt16} {k : Period}
  {slots slots' : PeriodicStats}

theorem slots_call (h : handleCall v c = .ok v')
    (hslots : v.periodicVWAPStatsPerIssue.lookup s = some slots) :
    ∃ slots', v'.periodicVWAPStatsPerIssue.lookup s = some slots' ∧
      slots' k = (filedInto s k [c]).foldl VWAPFormula.file (slots k) := by
  have hstep : vwapStep c.1 v (.execution c.2) = .ok v' := h
  have hafter := slots_vwapStep hstep s
  rw [hslots, slotsAfter] at hafter
  by_cases hs : c.2.stockLocate = s
  · rw [if_pos hs, Option.map_some] at hafter
    refine ⟨_, hafter, ?_⟩
    by_cases hk : c.1.toNat = (k : Nat)
    · simp [PeriodicStats.file, filedInto, hs, hk]
    · simp [PeriodicStats.file, filedInto, hk]
  · rw [if_neg hs] at hafter
    exact ⟨slots, hafter, by simp [filedInto, hs]⟩

theorem slots_calls (h : Run (Steps handleCall) v calls v')
    (hslots : v.periodicVWAPStatsPerIssue.lookup s = some slots) :
    ∃ slots', v'.periodicVWAPStatsPerIssue.lookup s = some slots' ∧
      slots' k = (filedInto s k calls).foldl VWAPFormula.file (slots k) := by
  induction h generalizing slots with
  | nil => exact ⟨slots, hslots, rfl⟩
  | @cons v u v' c calls hstep _ ih =>
      obtain ⟨slots₁, hslots₁, hone⟩ := slots_call (k := k) hstep hslots
      obtain ⟨slots₂, hslots₂, hrest⟩ := ih hslots₁
      refine ⟨slots₂, hslots₂, ?_⟩
      have hsplit : filedInto s k (c :: calls) = filedInto s k [c] ++ filedInto s k calls := by
        rw [← List.singleton_append, filedInto, List.filter_append, List.map_append]
        rfl
      rw [hrest, hone, hsplit, List.foldl_append]

/-- **When a slot holds the statistics of what it accepted**, after any calls that start from its
default: exactly if the first price it accepted is 0 or `UINT32_MAX`, or a later one is not above
it. -/
theorem slot_statistics_iff (hrun : calls.foldlM handleCall v = .ok v')
    (hslots : v.periodicVWAPStatsPerIssue.lookup s = some slots) (hdefault : slots k = {})
    (hslots' : v'.periodicVWAPStatsPerIssue.lookup s = some slots')
    (hne : VWAPFormula.acceptedFrom {} (filedInto s k calls) ≠ []) :
    (slots' k).IsSummaryOf (VWAPFormula.acceptedFrom {} (filedInto s k calls)) ↔
      SetsLow ((VWAPFormula.acceptedFrom {} (filedInto s k calls)).map (·.price)) := by
  obtain ⟨slots₁, hslots₁, hfold⟩ := slots_calls (k := k) (foldlM_eq_ok.1 hrun) hslots
  obtain rfl : slots₁ = slots' := Option.some.inj (hslots₁.symm.trans hslots')
  have hsum : (slots₁ k).Summarises (VWAPFormula.acceptedFrom {} (filedInto s k calls)) := by
    rw [hfold, hdefault]
    exact VWAPFormula.summarises_initial.run
  exact hsum.isSummaryOf_iff hne

end Calls

/-- An issue that trades, with empty slots. -/
def openManager : VWAPManager := ({} : VWAPManager).handleStockTradingAction 1 [65] stockIsTrading

/-- Trades at 100, 95 and, withheld, 200, in the second period. -/
def dippingCalls : List Call :=
  [(1, ⟨1, 100, 10, 36000000000000, 1⟩), (1, ⟨1, 95, 10, 36060000000000, 2⟩),
    (1, ⟨1, 200, 10, 36120000000000, 3⟩)]

theorem slot_statistics_dipping : ∃ v' slots', dippingCalls.foldlM handleCall openManager = .ok v' ∧
    v'.periodicVWAPStatsPerIssue.lookup 1 = some slots' ∧
    (slots' 1).IsSummaryOf
      (VWAPFormula.acceptedFrom {} (filedInto 1 1 dippingCalls)) := by
  have hrun : ∃ v', dippingCalls.foldlM handleCall openManager = .ok v' := ⟨_, rfl⟩
  obtain ⟨v', hrun⟩ := hrun
  have hslots : openManager.periodicVWAPStatsPerIssue.lookup 1 = some PeriodicStats.initial := rfl
  obtain ⟨slots', hslots', -⟩ := slots_calls (k := 1) (foldlM_eq_ok.1 hrun) hslots
  exact ⟨v', slots', hrun, hslots',
    (slot_statistics_iff hrun hslots rfl hslots' (by decide)).2 (by decide)⟩

/-- One trade at 100, in the second period. -/
def oneCall : List Call := [(1, ⟨1, 100, 10, 36000000000000, 1⟩)]

/-- **The low stays at its initial value**: the only execution that the slot accepted has price
100, and the low is `UINT32_MAX`. -/
theorem slot_low_not_set : ∃ v' slots', oneCall.foldlM handleCall openManager = .ok v' ∧
    v'.periodicVWAPStatsPerIssue.lookup 1 = some slots' ∧
    VWAPFormula.acceptedFrom {} (filedInto 1 1 oneCall) = [⟨1, 100, 10, 36000000000000, 1⟩] ∧
    (slots' 1).low = uint32Max ∧
    ¬ (slots' 1).IsSummaryOf [⟨1, 100, 10, 36000000000000, 1⟩] := by
  refine ⟨_, _, rfl, rfl, rfl, rfl, fun h => ?_⟩
  have hle := h.le_low _ List.mem_cons_self
  exact absurd hle (by decide)

/-! ## Streams -/

/-- The same after every stream, for the executions that it added to the slot. -/
theorem slot_statistics_run_iff {b : Build} {w : World} {stream : List Message} {s : UInt16}
    {slots : PeriodicStats} {k : Period} (hrun : processAll b World.initial stream = .ok w)
    (hslots : w.slots s = some slots)
    (hne : inSlot k (accepted b s World.initial stream) ≠ []) :
    (slots k).IsSummaryOf (inSlot k (accepted b s World.initial stream)) ↔
      SetsLow ((inSlot k (accepted b s World.initial stream)).map (·.price)) :=
  ((summarises_run hrun s).2 slots hslots k).isSummaryOf_iff hne

end NasdaqItch
