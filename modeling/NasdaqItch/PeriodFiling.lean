import NasdaqItch.Reachable

/-!
# Which period an execution is filed under

The live path indexes the slots with `currentPeriod`, a counter that the header of every message
may move; the merge computes the index from the candidate's own timestamp. The two agree on
exactly the executions stamped from 9:00 to 16:00 (`filedByClock_iff`).

Before 9:00 the counter still has its initial value, so a pre-market execution goes into the
first slot; after 16:00 and before the close it keeps the last value, so a late one goes into the
last slot. The merge discards both kinds.
-/

namespace NasdaqItch

open UnorderedMap Runs VWAPManager

/-- The message makes `e` reach `handleOrderOrTradeExecuted`, for an issue that has slots. -/
structure Reaches (b : Build) (w : World) (m : Message) (e : Execution)
    (slots : PeriodicStats) : Prop where
  action : ∃ book, bookStep b w.marketCloseTimestamp w.orderBook m = .ok (book, .execution e)
  known : w.vwapManager.periodicVWAPStatsPerIssue.lookup e.stockLocate = some slots

/-- The live path files `e` where the merge would. Here `period` is the counter when `e` is
filed, and `slots` are the slots of its issue. -/
structure FiledByClock (period : UInt8) (slots : PeriodicStats) (e : Execution) : Prop where
  index : period = getCurrentPeriodFromTimestamp e.timestamp
  /-- What the merge would discard is not added to a slot. -/
  discarded : ¬ (getCurrentPeriodFromTimestamp e.timestamp).toNat < numberOfPeriodsPerDay →
    ∀ k : Period, period.toNat = k → (slots k).withholds e = true

variable {b : Build} {w w' : World} {m : Message} {e : Execution} {slots : PeriodicStats}

theorem processHeaderTimestamp_eq_iff {p : UInt8} (hp : p.toNat < numberOfPeriodsPerDay)
    (t : UInt64) : processHeaderTimestamp p t = getCurrentPeriodFromTimestamp t ↔
      (getCurrentPeriodFromTimestamp t).toNat < numberOfPeriodsPerDay := by
  rw [processHeaderTimestamp_eq]
  by_cases h : (getCurrentPeriodFromTimestamp t).toNat < numberOfPeriodsPerDay
  · simp [h]
  · rw [if_neg h]
    refine ⟨fun heq => ?_, fun h' => absurd h' h⟩
    exact heq ▸ hp

/-- **When the live path and the merge agree on the period.** Exactly for the executions stamped
from 9:00 to 16:00, whatever came before them. -/
theorem filedByClock_iff (hw : Reachable b w) (hm : m.timestamp.toNat < 2 ^ 48)
    (hstep : consume b w m = .ok w') (he : Reaches b w m e slots) :
    FiledByClock w'.currentPeriod slots e ↔
      startOfFirstPeriod ≤ e.timestamp ∧ e.timestamp < endOfLastPeriod := by
  obtain ⟨book, haction⟩ := he.action
  obtain ⟨hts, -⟩ := (bookStep_asks haction).execution_eq
  obtain ⟨-, -, -, hperiod, -⟩ := consume_eq_ok.1 hstep
  rw [hts, ← period_lt_iff hm]
  refine ⟨fun h => ?_, fun h => ?_⟩
  · have hindex := h.index
    rw [hperiod, hts] at hindex
    exact (processHeaderTimestamp_eq_iff hw.consistent.period _).1 hindex
  · refine ⟨?_, fun hout => absurd h (hts ▸ hout)⟩
    rw [hperiod, hts]
    exact (processHeaderTimestamp_eq_iff hw.consistent.period _).2 h

/-- A trade at 10:00 goes where the merge would put it. -/
theorem filedByClock_midday :
    FiledByClock
      (World.after .release
        [startsTrading 1 (clock 7 0), trade 1 (clock 10 0) 100 100 1]).currentPeriod
      PeriodicStats.initial ⟨1, 100, 100, clock 10 0, 1⟩ :=
  (filedByClock_iff (b := .release) (w := World.after .release [startsTrading 1 (clock 7 0)])
    (m := trade 1 (clock 10 0) 100 100 1) (e := ⟨1, 100, 100, clock 10 0, 1⟩)
    ⟨_, processAll_after _ (by decide)⟩ (by decide)
    (processAll_after (b := .release)
      [startsTrading 1 (clock 7 0), trade 1 (clock 10 0) 100 100 1] (by decide))
    ⟨⟨∅, rfl⟩, by rfl⟩).2 (by decide)

/-- A trade before the market opens. -/
def preMarketStream : List Message :=
  [startsTrading 1 (clock 7 0), trade 1 (clock 8 0) 100 100 1]

/-- The live path adds the pre-market trade to the first slot; the merge would have discarded
it. The timestamps are in order. -/
theorem preMarket_not_filedByClock :
    processAll .release World.initial preMarketStream = .ok (World.after .release preMarketStream) ∧
      preMarketStream.Pairwise (·.timestamp ≤ ·.timestamp) ∧
      Reaches .release (World.after .release [startsTrading 1 (clock 7 0)])
        (trade 1 (clock 8 0) 100 100 1) ⟨1, 100, 100, clock 8 0, 1⟩ PeriodicStats.initial ∧
      ¬ FiledByClock (World.after .release preMarketStream).currentPeriod PeriodicStats.initial
        ⟨1, 100, 100, clock 8 0, 1⟩ := by
  refine ⟨processAll_after _ (by decide), by decide, ⟨⟨∅, rfl⟩, by rfl⟩, fun h => ?_⟩
  exact absurd (h.discarded (by decide) 0 (by decide)) (by decide)

end NasdaqItch
