import NasdaqItch.BookStep

/-!
# What every reachable state satisfies

The three maps of `VWAPManager` are filled by different handlers with different guards and read
together at the end of the day. `VWAPManager.Consistent` is what the reading side relies on, and
the period counter stays an index of the slot arrays; both hold in every state that a stream of
messages leads to.
-/

namespace NasdaqItch

open UnorderedMap Runs VWAPManager

/-- What the report and the merge assume of the maps. -/
structure VWAPManager.Consistent (v : VWAPManager) : Prop where
  /-- Every issue with slots has a symbol. -/
  symbol : ∀ s, s ∈ v.periodicVWAPStatsPerIssue → s ∈ v.stockLocateToStockSymbol
  /-- The issue of every candidate has slots. -/
  candidate : ∀ n c, v.brokenTradeCandidates.lookup n = some c →
    c.stockLocate ∈ v.periodicVWAPStatsPerIssue

/-- Counter and maps together. -/
structure World.Consistent (w : World) : Prop where
  period : w.currentPeriod.toNat < numberOfPeriodsPerDay
  maps : w.vwapManager.Consistent

/-- The states that some stream of messages leads to. -/
def Reachable (b : Build) (w : World) : Prop :=
  ∃ stream, processAll b World.initial stream = .ok w

/-! ## The handlers keep the maps consistent -/

namespace VWAPManager

variable {v v' : VWAPManager} {p : UInt8} {act : Action}

theorem consistent_initial : ({} : VWAPManager).Consistent where
  symbol := fun s hs => absurd hs Finmap.notMem_empty
  candidate := fun n c hc => by simp at hc

theorem Consistent.handleBrokenTrade (h : v.Consistent) (n : UInt64) :
    (v.handleBrokenTrade n).Consistent := by
  rw [handleBrokenTrade_eq]
  refine ⟨h.symbol, fun m c hc => ?_⟩
  simp only [lookup_erase_if] at hc
  by_cases hm : m = n
  · simp [hm] at hc
  · rw [if_neg hm] at hc
    exact h.candidate m c hc

theorem Consistent.handleStockTradingAction (h : v.Consistent) (s : UInt16) (stock : Bytes)
    (state : UInt8) : (v.handleStockTradingAction s stock state).Consistent := by
  have hsymbol : ∀ s', s' ∈ v.periodicVWAPStatsPerIssue →
      s' ∈ emplace v.stockLocateToStockSymbol s stock :=
    fun s' hs' => mem_emplace.2 (Or.inr (h.symbol s' hs'))
  unfold VWAPManager.handleStockTradingAction
  by_cases hstate : state = stockIsTrading
  · rw [if_neg (not_not.2 hstate)]
    refine ⟨fun s' hs' => ?_, fun n c hc => mem_emplace.2 (Or.inr (h.candidate n c hc))⟩
    rcases mem_emplace.1 hs' with rfl | hs'
    · exact mem_emplace_self ..
    · exact hsymbol s' hs'
  · rw [if_pos hstate]
    exact ⟨hsymbol, h.candidate⟩

theorem Consistent.handleOrderOrTradeExecuted (h : v.Consistent) {e : Execution}
    (hv : VWAPManager.handleOrderOrTradeExecuted p v e = .ok v') : v'.Consistent := by
  rcases handleOrderOrTradeExecuted_eq_ok.1 hv with ⟨-, rfl⟩ | ⟨slots, k, hslots, -, rfl⟩
  · exact h
  · have hmem : e.stockLocate ∈ v.periodicVWAPStatsPerIssue :=
      Finmap.mem_of_lookup_eq_some hslots
    refine ⟨fun s hs => ?_, fun n c hc => Finmap.mem_insert.2 ?_⟩
    · rcases Finmap.mem_insert.1 hs with rfl | hs
      · exact h.symbol _ hmem
      · exact h.symbol s hs
    · dsimp only at hc
      split_ifs at hc with hwithheld
      · -- The new candidate is one of the issue just filed; the others were there before.
        rw [lookup_insert_if] at hc
        by_cases hn : n = e.matchNumber
        · rw [if_pos hn, Option.some.injEq] at hc
          exact Or.inl (hc ▸ rfl)
        · rw [if_neg hn] at hc
          exact Or.inr (h.candidate n c hc)
      · exact Or.inr (h.candidate n c hc)

theorem Consistent.vwapStep (h : v.Consistent) (hv : NasdaqItch.vwapStep p v act = .ok v') :
    v'.Consistent := by
  cases act with
  | idle => exact Except.ok.inj hv ▸ h
  | brokenTrade n => exact Except.ok.inj hv ▸ h.handleBrokenTrade n
  | tradingAction s stock state => exact Except.ok.inj hv ▸ h.handleStockTradingAction s stock state
  | execution e => exact h.handleOrderOrTradeExecuted hv

end VWAPManager

/-! ## Every reachable state is consistent -/

variable {b : Build} {w w' : World} {m : Message} {stream : List Message}

theorem World.consistent_initial : World.initial.Consistent :=
  ⟨by decide, VWAPManager.consistent_initial⟩

theorem World.Consistent.consume (h : w.Consistent) (hw : NasdaqItch.consume b w m = .ok w') :
    w'.Consistent := by
  obtain ⟨act, -, hv, hperiod, -⟩ := consume_eq_ok.1 hw
  exact ⟨hperiod ▸ processHeaderTimestamp_lt h.period m.timestamp, h.maps.vwapStep hv⟩

theorem World.Consistent.processAll (h : w.Consistent)
    (hw : NasdaqItch.processAll b w stream = .ok w') : w'.Consistent :=
  (processAll_eq_ok.1 hw).invariant (fun _ _ _ _ hI hst => World.Consistent.consume hI hst) h

theorem Reachable.consistent (h : Reachable b w) : w.Consistent := by
  obtain ⟨stream, hw⟩ := h
  exact World.consistent_initial.processAll hw

theorem vwapStep_total {p : UInt8} (hp : p.toNat < numberOfPeriodsPerDay) (v : VWAPManager)
    (act : Action) : ∃ v', vwapStep p v act = .ok v' := by
  cases act with
  | execution e =>
      rcases lookup_eq_none_or v.periodicVWAPStatsPerIssue e.stockLocate with hnone | ⟨slots, hs⟩
      · exact ⟨v, VWAPManager.handleOrderOrTradeExecuted_eq_ok.2
          (Or.inl ⟨Finmap.lookup_eq_none.1 hnone, rfl⟩)⟩
      · exact ⟨_, VWAPManager.handleOrderOrTradeExecuted_eq_ok.2
          (Or.inr ⟨slots, ⟨p.toNat, hp⟩, hs, rfl, rfl⟩)⟩
  | _ => exact ⟨_, rfl⟩

/-! ## Running concrete streams -/

/-- The release build, on a platform where an erased entry keeps its bytes. -/
def Build.release : Build := ⟨false, ActiveOrderData.price⟩

/-- The state after a stream, for streams that are known to run through. -/
def World.after (b : Build) (stream : List Message) : World :=
  (processAll b World.initial stream).toOption.getD World.initial

theorem processAll_after (stream : List Message)
    (h : (processAll b World.initial stream).toBool = true) :
    processAll b World.initial stream = .ok (World.after b stream) := by
  unfold World.after
  cases hw : processAll b World.initial stream with
  | error e => simp [hw, Except.toBool] at h
  | ok w => rfl

/-- A stock trading action with state `'T'` for issue `s`. -/
def startsTrading (s : UInt16) (timestamp : UInt64) : Message :=
  ⟨⟨'H'.toUInt8, s, timestamp⟩, .stockTradingAction ⟨[65], stockIsTrading, 32, []⟩⟩

/-- A trade of issue `s`. -/
def trade (s : UInt16) (timestamp : UInt64) (price shares : UInt32) (matchNumber : UInt64) :
    Message :=
  ⟨⟨'P'.toUInt8, s, timestamp⟩, .tradeNonCross ⟨0, 66, shares, [65], price, matchNumber⟩⟩

/-- A broken-trade message for a trade of issue `s`. -/
def breaksTrade (s : UInt16) (timestamp matchNumber : UInt64) : Message :=
  ⟨⟨'B'.toUInt8, s, timestamp⟩, .brokenTrade ⟨matchNumber⟩⟩

/-- `h` o'clock and `m` minutes, in nanoseconds since midnight. -/
def clock (h m : UInt64) : UInt64 := h * nanosecondsPerHour + m * 60000000000

end NasdaqItch
