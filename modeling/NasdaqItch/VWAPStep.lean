import NasdaqItch.BookStep

/-!
# What one action does to the VWAP bookkeeping

`VWAPManager` has three maps. What an action leaves of an issue's slots and of its symbol depends
on the action and on what was there (`slotsAfter`, `symbolAfter`), not on other issues; a candidate
that is there afterwards was there before, or the message brought it (`candidates_vwapStep`).
-/

namespace NasdaqItch

open UnorderedMap Runs VWAPManager

/-! ## Slots -/

/-- The slots of an issue. -/
def World.slots (w : World) (s : UInt16) : Option PeriodicStats :=
  w.vwapManager.periodicVWAPStatsPerIssue.lookup s

/-- The slots after an execution was filed into the current one. -/
def PeriodicStats.file (slots : PeriodicStats) (currentPeriod : UInt8) (e : Execution) :
    PeriodicStats :=
  fun k => if currentPeriod.toNat = k then (slots k).file e else slots k

/-- The slots of issue `s` after an action. -/
def slotsAfter (currentPeriod : UInt8) (act : Action) (s : UInt16)
    (slots : Option PeriodicStats) : Option PeriodicStats :=
  match act with
  | .tradingAction s' _ tradingState =>
      if s' = s ∧ tradingState = stockIsTrading then some (slots.getD PeriodicStats.initial)
      else slots
  | .execution e =>
      if e.stockLocate = s then slots.map fun slots => slots.file currentPeriod e else slots
  | _ => slots

theorem PeriodicStats.file_eq_update {slots : PeriodicStats} {p : UInt8} {k : Period}
    (hk : p.toNat = k) (e : Execution) :
    slots.file p e = Function.update slots k ((slots k).file e) := by
  funext j
  unfold PeriodicStats.file
  by_cases hj : j = k
  · rw [hj, if_pos hk, Function.update_self]
  · rw [Function.update_of_ne hj, if_neg fun h => hj (Fin.ext (h.symm.trans hk))]

/-- **The slots of an issue evolve on their own**: they depend on the action, the counter and
themselves, and not on other issues, candidates or the book. -/
theorem slots_vwapStep {p : UInt8} {v v' : VWAPManager} {act : Action}
    (h : vwapStep p v act = .ok v') (s : UInt16) :
    v'.periodicVWAPStatsPerIssue.lookup s =
      slotsAfter p act s (v.periodicVWAPStatsPerIssue.lookup s) := by
  cases act with
  | idle =>
      rw [← Except.ok.inj h]
      rfl
  | brokenTrade n =>
      rw [← Except.ok.inj h, handleBrokenTrade_eq]
      rfl
  | tradingAction s' stock state =>
      rw [← Except.ok.inj h, handleStockTradingAction, slotsAfter]
      by_cases hstate : state = stockIsTrading
      · rw [if_neg (not_not.2 hstate), lookup_emplace_if]
        by_cases hs : s = s'
        · rw [if_pos hs, if_pos ⟨hs.symm, hstate⟩, hs]
        · rw [if_neg hs, if_neg fun h => hs h.1.symm]
      · rw [if_pos hstate, if_neg fun h => hstate h.2]
  | execution e =>
      rw [slotsAfter]
      rcases handleOrderOrTradeExecuted_eq_ok.1 h with ⟨hnot, rfl⟩ | ⟨slots, k, hslots, hk, rfl⟩
      · split_ifs with hs
        · rw [Finmap.lookup_eq_none.2 (hs ▸ hnot), Option.map_none]
        · rfl
      · rw [lookup_insert_if]
        by_cases hs : s = e.stockLocate
        · rw [if_pos hs, if_pos hs.symm, hs, hslots, Option.map_some,
            PeriodicStats.file_eq_update hk]
        · rw [if_neg hs, if_neg (Ne.symm hs)]

section

variable {p : UInt8} {act : Action} {s : UInt16} {slots : PeriodicStats}

theorem isSome_slotsAfter {slots : Option PeriodicStats} :
    (slotsAfter p act s slots).isSome = true ↔
      slots.isSome = true ∨ ∃ stock, act = .tradingAction s stock stockIsTrading := by
  cases act with
  | execution e =>
      rw [slotsAfter]
      split_ifs <;> simp
  | tradingAction s' stock state =>
      rw [slotsAfter]
      split_ifs with hopen
      · simp [hopen]
      · refine ⟨Or.inl, fun h => h.resolve_right ?_⟩
        rintro ⟨stock', heq⟩
        obtain ⟨hs, -, hstate⟩ := Action.tradingAction.inj heq
        exact hopen ⟨hs, hstate⟩
  | _ => simp [slotsAfter]

end

/-! ## Symbols and candidates -/

/-- The match numbers a message carries, a broken-trade message included. -/
def Message.matchNumbers (m : Message) : List UInt64 :=
  match m.body with
  | .brokenTrade t => [t.matchNumber]
  | _ => m.matchNumber.toList

theorem Message.mem_matchNumbers {m : Message} {n : UInt64} (h : m.matchNumber = some n) :
    n ∈ m.matchNumbers := by
  unfold Message.matchNumbers
  split
  · rename_i t ht
    simp [Message.matchNumber, ht] at h
  · rw [h]
    exact List.mem_singleton_self n

namespace VWAPManager

variable {p : UInt8} {v v₁ : VWAPManager} {m : Message} {act : Action} {close : UInt64}
  {s : UInt16}

/-- The symbol of issue `s` after an action: the first one stays. -/
def symbolAfter (act : Action) (s : UInt16) (symbol : Option Bytes) : Option Bytes :=
  match act with
  | .tradingAction s' stock _ => if s' = s then some (symbol.getD stock) else symbol
  | _ => symbol

theorem symbol_vwapStep (hv : vwapStep p v act = .ok v₁) (s : UInt16) :
    v₁.stockLocateToStockSymbol.lookup s =
      symbolAfter act s (v.stockLocateToStockSymbol.lookup s) := by
  cases act with
  | idle =>
      rw [← Except.ok.inj hv]
      rfl
  | brokenTrade n =>
      rw [← Except.ok.inj hv, handleBrokenTrade_eq]
      rfl
  | tradingAction s' stock state =>
      have hsymbol : (emplace v.stockLocateToStockSymbol s' stock).lookup s =
          symbolAfter (.tradingAction s' stock state) s (v.stockLocateToStockSymbol.lookup s) := by
        rw [lookup_emplace_if, symbolAfter]
        by_cases hs : s = s'
        · rw [if_pos hs, if_pos hs.symm, hs]
        · rw [if_neg hs, if_neg (Ne.symm hs)]
      rw [← Except.ok.inj hv, VWAPManager.handleStockTradingAction]
      split_ifs <;> exact hsymbol
  | execution e =>
      rcases handleOrderOrTradeExecuted_eq_ok.1 hv with ⟨-, rfl⟩ | ⟨slots, k, -, -, rfl⟩ <;> rfl

theorem symbolAfter_some {symbol : Bytes} : symbolAfter act s (some symbol) = some symbol := by
  cases act with
  | tradingAction s' stock state => exact ite_self _
  | _ => rfl

/-- The candidates after an action: a broken-trade message takes one out, an execution may put
one in, under the number of the message and for its issue. -/
theorem candidates_vwapStep (hasks : Asks close m act) (hv : vwapStep p v act = .ok v₁)
    (n : UInt64) :
    (n ∉ m.matchNumbers → v₁.brokenTradeCandidates.lookup n = v.brokenTradeCandidates.lookup n) ∧
      ∀ c, v₁.brokenTradeCandidates.lookup n = some c →
        v.brokenTradeCandidates.lookup n = some c ∨
          m.matchNumber = some n ∧ c.stockLocate = m.stockLocate := by
  cases hasks with
  | idle =>
      rw [← Except.ok.inj hv]
      exact ⟨fun _ => rfl, fun c hc => Or.inl hc⟩
  | tradingAction a =>
      rw [← Except.ok.inj hv, VWAPManager.handleStockTradingAction]
      split_ifs <;> exact ⟨fun _ => rfl, fun c hc => Or.inl hc⟩
  | brokenTrade t hm =>
      rw [← Except.ok.inj hv, handleBrokenTrade_eq]
      simp only [lookup_erase_if]
      refine ⟨fun hn => if_neg ?_, fun c hc => Or.inl ?_⟩
      · simpa [Message.matchNumbers, hm] using hn
      · split_ifs at hc
        exact hc
  | execution price volume number ht =>
      have hnumber : m.matchNumber = some number := (Message.traded_eq_some ht).2.2
      rcases handleOrderOrTradeExecuted_eq_ok.1 hv with ⟨-, rfl⟩ | ⟨slots, k, -, -, rfl⟩
      · exact ⟨fun _ => rfl, fun c hc => Or.inl hc⟩
      · dsimp only
        split_ifs
        · simp only [lookup_insert_if]
          refine ⟨fun hn => if_neg fun heq : n = number =>
            hn (heq ▸ Message.mem_matchNumbers hnumber), fun c hc => ?_⟩
          split_ifs at hc with heq
          · exact Or.inr ⟨heq ▸ hnumber, by rw [← Option.some.inj hc]; rfl⟩
          · exact Or.inl hc
        · exact ⟨fun _ => rfl, fun c hc => Or.inl hc⟩

end VWAPManager

end NasdaqItch
