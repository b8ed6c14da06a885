import NasdaqItch.Basic
import NasdaqItch.OrderBook

/-!
# VWAP bookkeeping

`VWAPFormula`, `BrokenTradeCandidate` and `VWAPManager` of `src/bookkeeping/VWAPManager.{h,cpp}`.

Every execution, trade or cross ends up in `handleOrderOrTradeExecuted`, which either *withholds*
it as a broken-trade candidate or *accepts* it into the slot of its issue and the current period.
At the end of the day the remaining candidates are merged and the cumulative VWAP is printed.

The heuristic's products with `0.9`, `1.1` and so on are exact rationals here, truncated to an
integer: the error of the `double` product is too small to cross an integer. A product of 33 bits
is reduced to 32; the language leaves that conversion open. `std::round` in `getTypicalPrice` is
applied to a quotient of integers and does nothing.
-/

namespace NasdaqItch

open UnorderedMap Runs

/-! ## Slots -/

/-- The statistics of one issue in one period. -/
structure VWAPFormula where
  high : UInt32 := 0
  low : UInt32 := uint32Max
  close : UInt32 := 0
  closingTimestamp : UInt64 := 0
  volume : UInt64 := 0
  /-- Used to judge whether the next trade may be erroneous. -/
  lastSalePrice : UInt32 := uint32Max
  deriving DecidableEq, Repr

namespace VWAPFormula

/-- All in 32 bits: the sum wraps. -/
def getTypicalPrice (data : VWAPFormula) : UInt32 := (data.high + data.low + data.close) / 3

def getPV (data : VWAPFormula) : UInt64 := data.getTypicalPrice.toUInt64 * data.volume

end VWAPFormula

/-- `std::array<VWAPFormula, NUMBER_OF_PERIODS_PER_DAY>`. -/
abbrev PeriodicStats := Period → VWAPFormula

/-- What `std::array<VWAPFormula, NUMBER_OF_PERIODS_PER_DAY>()` holds. -/
def PeriodicStats.initial : PeriodicStats := fun _ => {}

structure BrokenTradeCandidate where
  executionPrice : UInt32
  executionTimestamp : UInt64
  executionVolume : UInt64
  stockLocate : UInt16
  deriving DecidableEq, Repr

structure VWAPManager where
  stockLocateToStockSymbol : UnorderedMap UInt16 Bytes := ∅
  periodicVWAPStatsPerIssue : UnorderedMap UInt16 PeriodicStats := ∅
  brokenTradeCandidates : UnorderedMap UInt64 BrokenTradeCandidate := ∅

/-! ## The erroneous-trade heuristic -/

def topOf10PercentBand : UInt32 := 250000

def topOf5PercentBand : UInt32 := 500000

/-- The two factors, in hundredths, for the band the price falls in. -/
def priceBand (price : UInt32) : Nat × Nat :=
  if price < topOf10PercentBand then (90, 110)
  else if price < topOf5PercentBand then (95, 105)
  else (97, 103)

def flagOrderOrTradeAsErroneousCandidate (price lastPrice : UInt32) : Bool :=
  let floor := UInt32.ofNat (lastPrice.toNat * (priceBand price).1 / 100)
  let ceiling := UInt32.ofNat (lastPrice.toNat * (priceBand price).2 / 100)
  price ≤ floor || price ≥ ceiling

/-- The whole withholding test: there was a sale before, and the price is too far from it. -/
def withheldAgainst (lastSalePrice price : UInt32) : Bool :=
  lastSalePrice ≠ uint32Max && flagOrderOrTradeAsErroneousCandidate price lastSalePrice

/-! ## Filing an execution -/

/-- The arguments of `_handleOrderOrTradeExecuted`. -/
structure Execution where
  stockLocate : UInt16
  price : UInt32
  volume : UInt64
  timestamp : UInt64
  matchNumber : UInt64
  deriving DecidableEq, Repr

def Execution.toCandidate (e : Execution) : BrokenTradeCandidate :=
  ⟨e.price, e.timestamp, e.volume, e.stockLocate⟩

namespace VWAPFormula

/-- The `else` branch: the execution goes into the slot. -/
def accept (data : VWAPFormula) (e : Execution) : VWAPFormula :=
  let data :=
    if e.price > data.high then { data with high := e.price }
    else if e.price < data.low then { data with low := e.price }
    else data
  { data with
    volume := data.volume + e.volume
    close := e.price
    closingTimestamp := e.timestamp }

def withholds (data : VWAPFormula) (e : Execution) : Bool :=
  withheldAgainst data.lastSalePrice e.price

/-- The slot after an execution. Withheld or not, the last sale price moves. -/
def file (data : VWAPFormula) (e : Execution) : VWAPFormula :=
  let data := if data.withholds e then data else data.accept e
  { data with lastSalePrice := e.price }

end VWAPFormula

namespace VWAPManager

def handleOrderOrTradeExecuted (currentPeriod : UInt8) (v : VWAPManager) (e : Execution) :
    Except Fault VWAPManager :=
  match v.periodicVWAPStatsPerIssue.lookup e.stockLocate with
  | none => .ok v
  | some slots => do
      let k ← periodAt currentPeriod
      let data := slots k
      return { v with
        periodicVWAPStatsPerIssue :=
          v.periodicVWAPStatsPerIssue.insert e.stockLocate (Function.update slots k (data.file e))
        brokenTradeCandidates :=
          if data.withholds e then v.brokenTradeCandidates.insert e.matchNumber e.toCandidate
          else v.brokenTradeCandidates }

/-- The stock locate of the message plays no part. -/
def handleBrokenTrade (v : VWAPManager) (matchNumber : UInt64) : VWAPManager :=
  if matchNumber ∉ v.brokenTradeCandidates then v
  else { v with brokenTradeCandidates := v.brokenTradeCandidates.erase matchNumber }

/-- `'T'`. -/
def stockIsTrading : UInt8 := 'T'.toUInt8

def handleStockTradingAction (v : VWAPManager) (stockLocate : UInt16) (stock : Bytes)
    (tradingState : UInt8) : VWAPManager :=
  let v := { v with
    stockLocateToStockSymbol := emplace v.stockLocateToStockSymbol stockLocate stock }
  if tradingState ≠ stockIsTrading then v
  else { v with
    periodicVWAPStatsPerIssue :=
      emplace v.periodicVWAPStatsPerIssue stockLocate PeriodicStats.initial }

/-! ## The end-of-day merge -/

/-- What the merge computes for one candidate, on its local variable `dataToUpdate`. -/
def mergeInto (dataToUpdate : VWAPFormula) (c : BrokenTradeCandidate) : VWAPFormula :=
  let dataToUpdate :=
    if c.executionPrice < dataToUpdate.low then { dataToUpdate with low := c.executionPrice }
    else if c.executionPrice > dataToUpdate.high then
      { dataToUpdate with high := c.executionPrice }
    else dataToUpdate
  let dataToUpdate := { dataToUpdate with volume := dataToUpdate.volume + c.executionVolume }
  if c.executionTimestamp < dataToUpdate.closingTimestamp then dataToUpdate
  else { dataToUpdate with
    closingTimestamp := c.executionTimestamp, close := c.executionPrice }

/-- One round of the merge loop. -/
def mergeOne (b : Build) (stats : UnorderedMap UInt16 PeriodicStats) (c : BrokenTradeCandidate) :
    Except Fault (UnorderedMap UInt16 PeriodicStats) := do
  let period := getCurrentPeriodFromTimestamp c.executionTimestamp
  b.assert (c.stockLocate ∈ stats)
  if h : period.toNat < numberOfPeriodsPerDay then
    b.assert (period.toNat < numberOfPeriodsPerDay)
    -- `operator[]` makes an entry where there is none.
    let stats := emplace stats c.stockLocate PeriodicStats.initial
    let slots := (stats.lookup c.stockLocate).getD PeriodicStats.initial
    -- `dataToUpdate` is declared by value: it is a copy of the slot, and the loop body ends
    -- without writing it back.
    let _dataToUpdate := mergeInto (slots ⟨period.toNat, h⟩) c
    return stats
  else return stats

def mergeRemainingBrokenTradeCandidatesIntoVWAPStatsPerPeriod (b : Build) (v : VWAPManager)
    (order : IterationOrder v.brokenTradeCandidates) : Except Fault VWAPManager := do
  let stats ← order.entries.foldlM (fun stats e => mergeOne b stats e.2)
    v.periodicVWAPStatsPerIssue
  return { v with periodicVWAPStatsPerIssue := stats, brokenTradeCandidates := ∅ }

/-! ## The report -/

/-- One printed line, with the price as the integer that `_getPriceFromInt` divides by 10000. -/
structure Line where
  symbol : Bytes
  price : UInt32
  deriving DecidableEq, Repr

/-- The loop over the periods, with its two accumulators; `i` is the file the line goes to. -/
def reportLoop (symbol : Bytes) (slots : PeriodicStats) :
    List Period → UInt64 → UInt64 → List (Period × Line)
  | [], _, _ => []
  | i :: is, cumulativePV, cumulativeVolume =>
      let cumulativePV := cumulativePV + (slots i).getPV
      let cumulativeVolume := cumulativeVolume + (slots i).volume
      if cumulativeVolume = 0 then reportLoop symbol slots is cumulativePV cumulativeVolume
      else
        let vwapThisPeriod := cumulativePV / cumulativeVolume
        (i, ⟨symbol, vwapThisPeriod.toUInt32⟩) ::
          reportLoop symbol slots is cumulativePV cumulativeVolume

/-- The lines of one issue. -/
def reportOneIssue (symbol : Bytes) (slots : PeriodicStats) : List (Period × Line) :=
  reportLoop symbol slots (List.finRange numberOfPeriodsPerDay) 0 0

/-- `_stockLocateToStockSymbol.at`. -/
def symbolAt (v : VWAPManager) (stockLocate : UInt16) : Except Fault Bytes :=
  match v.stockLocateToStockSymbol.lookup stockLocate with
  | some symbol => .ok symbol
  | none => .error .outOfRange

/-- Returns the lines that are printed, issue after issue, each with the index of its file. -/
def outputBrokenTradeAdjustedVWAP (b : Build) (v : VWAPManager)
    (order : IterationOrder v.brokenTradeCandidates)
    (issues : ∀ stats : UnorderedMap UInt16 PeriodicStats, IterationOrder stats) :
    Except Fault (VWAPManager × List (UInt16 × List (Period × Line))) := do
  let v ← mergeRemainingBrokenTradeCandidatesIntoVWAPStatsPerPeriod b v order
  let lines ← (issues v.periodicVWAPStatsPerIssue).entries.mapM fun e => do
    let currentStockSymbol ← v.symbolAt e.1
    return (e.1, reportOneIssue currentStockSymbol e.2)
  return (v, lines)

/-! ## What filing an execution does -/

variable {currentPeriod : UInt8} {v v' : VWAPManager} {e : Execution}

/-- **Filing an execution.** An unknown issue changes nothing; otherwise one slot of that issue
is filed into, and the candidate map grows when the execution is withheld. -/
theorem handleOrderOrTradeExecuted_eq_ok :
    handleOrderOrTradeExecuted currentPeriod v e = .ok v' ↔
      (e.stockLocate ∉ v.periodicVWAPStatsPerIssue ∧ v' = v) ∨
      ∃ slots k, v.periodicVWAPStatsPerIssue.lookup e.stockLocate = some slots ∧
        currentPeriod.toNat = (k : Period) ∧
        v' = { v with
          periodicVWAPStatsPerIssue := v.periodicVWAPStatsPerIssue.insert e.stockLocate
            (Function.update slots k ((slots k).file e))
          brokenTradeCandidates :=
            if (slots k).withholds e then
              v.brokenTradeCandidates.insert e.matchNumber e.toCandidate
            else v.brokenTradeCandidates } := by
  rcases lookup_eq_none_or v.periodicVWAPStatsPerIssue e.stockLocate with hnone | ⟨slots, hsome⟩
  · have hnot : e.stockLocate ∉ v.periodicVWAPStatsPerIssue := Finmap.lookup_eq_none.1 hnone
    simp only [handleOrderOrTradeExecuted, hnone, Except.ok.injEq, hnot, not_false_eq_true,
      true_and, reduceCtorEq, false_and, exists_false, or_false]
    exact eq_comm
  · have hmem : e.stockLocate ∈ v.periodicVWAPStatsPerIssue := Finmap.mem_of_lookup_eq_some hsome
    simp only [handleOrderOrTradeExecuted, hsome, bind_eq_ok, pure_eq_ok, periodAt_eq_ok, hmem,
      not_true_eq_false, false_and, false_or, Option.some.injEq]
    constructor
    · intro h
      obtain ⟨k, hk, hv⟩ := h
      exact ⟨slots, k, rfl, hk, hv.symm⟩
    · intro h
      obtain ⟨slots', k, rfl, hk, hv⟩ := h
      exact ⟨k, hk, hv.symm⟩

/-- A candidate map without the candidate is left alone by `erase`, so the guard is idle. -/
theorem handleBrokenTrade_eq (v : VWAPManager) (matchNumber : UInt64) :
    v.handleBrokenTrade matchNumber =
      { v with brokenTradeCandidates := v.brokenTradeCandidates.erase matchNumber } := by
  unfold handleBrokenTrade
  by_cases h : matchNumber ∈ v.brokenTradeCandidates
  · rw [if_neg (not_not.2 h)]
  · rw [if_pos h, erase_of_notMem h]

end VWAPManager

end NasdaqItch
