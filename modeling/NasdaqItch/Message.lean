import NasdaqItch.OrderBook
import NasdaqItch.VWAPManager

/-!
# Messages and what processing them does

The twelve message types the program keeps, with the fields their classes store, and each
class's `processMessage`. The singletons and globals that these functions reach are the fields
of a `World`.

`consume` is the body of the consumer's loop in `src/main.cpp`: the header first moves the period
counter, then the message is processed. `processAll` is the sequential program.
-/

namespace NasdaqItch

open UnorderedMap Runs

structure BinaryMessageHeader where
  messageType : UInt8
  stockLocate : UInt16
  timestamp : UInt64
  deriving DecidableEq, Repr

/-! ## The message classes -/

structure AddOrder where
  orderReferenceNumber : UInt64
  buySellIndicator : UInt8
  shares : UInt32
  stock : Bytes
  price : UInt32
  deriving DecidableEq, Repr

structure AddOrderMPID where
  orderReferenceNumber : UInt64
  buySellIndicator : UInt8
  shares : UInt32
  stock : Bytes
  price : UInt32
  attribution : Bytes
  deriving DecidableEq, Repr

structure BrokenTradeOrOrderExecution where
  matchNumber : UInt64
  deriving DecidableEq, Repr

structure CrossTrade where
  shares : UInt64
  stock : Bytes
  crossPrice : UInt32
  matchNumber : UInt64
  crossType : UInt8
  deriving DecidableEq, Repr

structure OrderCancel where
  orderReferenceNumber : UInt64
  cancelledShares : UInt32
  deriving DecidableEq, Repr

structure OrderDelete where
  orderReferenceNumber : UInt64
  deriving DecidableEq, Repr

structure OrderExecuted where
  orderReferenceNumber : UInt64
  executedShares : UInt32
  matchNumber : UInt64
  deriving DecidableEq, Repr

structure OrderExecutedWithPrice where
  orderReferenceNumber : UInt64
  executedShares : UInt32
  matchNumber : UInt64
  printable : UInt8
  executionPrice : UInt32
  deriving DecidableEq, Repr

structure OrderReplace where
  originalOrderReferenceNumber : UInt64
  newOrderReferenceNumber : UInt64
  shares : UInt32
  price : UInt32
  deriving DecidableEq, Repr

structure StockTradingAction where
  stock : Bytes
  tradingState : UInt8
  reserved : UInt8
  reason : Bytes
  deriving DecidableEq, Repr

structure SystemEvent where
  eventCode : UInt8
  deriving DecidableEq, Repr

structure TradeNonCross where
  orderReferenceNumber : UInt64
  buySellIndicator : UInt8
  shares : UInt32
  stock : Bytes
  price : UInt32
  matchNumber : UInt64
  deriving DecidableEq, Repr

/-- The part of a message that its class adds to `Message`. -/
inductive Body
  | addOrder (o : AddOrder)
  | addOrderMPID (o : AddOrderMPID)
  | brokenTrade (t : BrokenTradeOrOrderExecution)
  | crossTrade (t : CrossTrade)
  | orderCancel (o : OrderCancel)
  | orderDelete (o : OrderDelete)
  | orderExecuted (o : OrderExecuted)
  | orderExecutedWithPrice (o : OrderExecutedWithPrice)
  | orderReplace (o : OrderReplace)
  | stockTradingAction (a : StockTradingAction)
  | systemEvent (s : SystemEvent)
  | tradeNonCross (t : TradeNonCross)
  deriving DecidableEq, Repr

structure Message where
  header : BinaryMessageHeader
  body : Body
  deriving DecidableEq, Repr

namespace Message

abbrev timestamp (m : Message) : UInt64 := m.header.timestamp

abbrev stockLocate (m : Message) : UInt16 := m.header.stockLocate

end Message

/-! ## The state of the program -/

/-- `currentPeriod`, `marketCloseTimestamp` and the two singletons. -/
structure World where
  currentPeriod : UInt8 := 0
  marketCloseTimestamp : UInt64 := uint64Max
  orderBook : OrderBook := ∅
  vwapManager : VWAPManager := {}

/-- The state before the first message. -/
def World.initial : World := {}

/-! ## The handlers of `VWAPManager` -/

section Handlers

variable (b : Build) (w : World)

def World.handleOrderOrTradeExecuted (e : Execution) : Except Fault World := do
  let v ← w.vwapManager.handleOrderOrTradeExecuted w.currentPeriod e
  return { w with vwapManager := v }

def handleCrossTrade (timestamp : UInt64) (stockLocate : UInt16) (crossPrice : UInt32)
    (shares matchNumber : UInt64) : Except Fault World :=
  if shares = 0 then .ok w
  else w.handleOrderOrTradeExecuted ⟨stockLocate, crossPrice, shares, timestamp, matchNumber⟩

def handleOrderExecuted (timestamp : UInt64) (stockLocate : UInt16)
    (orderReferenceNumber : UInt64) (executedShares : UInt32) (matchNumber : UInt64) :
    Except Fault World := do
  let (book, price) ← OrderBook.executeActiveOrder b w.orderBook orderReferenceNumber
    executedShares
  { w with orderBook := book }.handleOrderOrTradeExecuted
    ⟨stockLocate, price, executedShares.toUInt64, timestamp, matchNumber⟩

/-- `'N'`: the execution is not printable. -/
def ignoreOrderExecutedWithPriceMessage : UInt8 := 'N'.toUInt8

def handleOrderExecutedWithPrice (timestamp : UInt64) (stockLocate : UInt16)
    (orderReferenceNumber : UInt64) (executedShares : UInt32) (matchNumber : UInt64)
    (printable : UInt8) (executionPrice : UInt32) : Except Fault World :=
  if printable = ignoreOrderExecutedWithPriceMessage then .ok w
  else do
    let book ← OrderBook.executeActiveOrderWithPrice b w.orderBook orderReferenceNumber
      executedShares
    { w with orderBook := book }.handleOrderOrTradeExecuted
      ⟨stockLocate, executionPrice, executedShares.toUInt64, timestamp, matchNumber⟩

def handleTrade (timestamp : UInt64) (stockLocate : UInt16) (price shares : UInt32)
    (matchNumber : UInt64) : Except Fault World :=
  w.handleOrderOrTradeExecuted ⟨stockLocate, price, shares.toUInt64, timestamp, matchNumber⟩

end Handlers

/-! ## `processMessage`

Each returns the new state and the flag the source returns: `false` when the message came after
hours and was dropped. -/

section ProcessMessage

variable (b : Build) (w : World) (header : BinaryMessageHeader)

def AddOrder.processMessage (o : AddOrder) : Except Fault (World × Bool) := do
  let book ← OrderBook.addToActiveOrders b w.orderBook o.orderReferenceNumber
    header.stockLocate o.shares o.price
  return ({ w with orderBook := book }, true)

def AddOrderMPID.processMessage (o : AddOrderMPID) : Except Fault (World × Bool) := do
  let book ← OrderBook.addToActiveOrders b w.orderBook o.orderReferenceNumber
    header.stockLocate o.shares o.price
  return ({ w with orderBook := book }, true)

def BrokenTradeOrOrderExecution.processMessage (t : BrokenTradeOrOrderExecution) :
    Except Fault (World × Bool) :=
  .ok ({ w with vwapManager := w.vwapManager.handleBrokenTrade t.matchNumber }, true)

def CrossTrade.processMessage (t : CrossTrade) : Except Fault (World × Bool) :=
  if isAfterHours w.marketCloseTimestamp header.timestamp then .ok (w, false)
  else do
    let w ← handleCrossTrade w header.timestamp header.stockLocate t.crossPrice t.shares
      t.matchNumber
    return (w, true)

def OrderCancel.processMessage (o : OrderCancel) : Except Fault (World × Bool) := do
  let book ← OrderBook.cancelActiveOrder b w.orderBook o.orderReferenceNumber o.cancelledShares
  return ({ w with orderBook := book }, true)

def OrderDelete.processMessage (o : OrderDelete) : Except Fault (World × Bool) := do
  let book ← OrderBook.deleteActiveOrder b w.orderBook o.orderReferenceNumber
  return ({ w with orderBook := book }, true)

def OrderExecuted.processMessage (o : OrderExecuted) : Except Fault (World × Bool) :=
  if isAfterHours w.marketCloseTimestamp header.timestamp then .ok (w, false)
  else do
    let w ← handleOrderExecuted b w header.timestamp header.stockLocate o.orderReferenceNumber
      o.executedShares o.matchNumber
    return (w, true)

def OrderExecutedWithPrice.processMessage (o : OrderExecutedWithPrice) :
    Except Fault (World × Bool) :=
  if isAfterHours w.marketCloseTimestamp header.timestamp then .ok (w, false)
  else do
    let w ← handleOrderExecutedWithPrice b w header.timestamp header.stockLocate
      o.orderReferenceNumber o.executedShares o.matchNumber o.printable o.executionPrice
    return (w, true)

def OrderReplace.processMessage (o : OrderReplace) : Except Fault (World × Bool) := do
  let book ← OrderBook.replaceActiveOrder b w.orderBook header.stockLocate
    o.originalOrderReferenceNumber o.newOrderReferenceNumber o.shares o.price
  return ({ w with orderBook := book }, true)

def StockTradingAction.processMessage (a : StockTradingAction) : Except Fault (World × Bool) :=
  .ok ({ w with
    vwapManager := w.vwapManager.handleStockTradingAction header.stockLocate a.stock
      a.tradingState }, true)

/-- `'M'`. -/
def eventCodeEndOfMarketHours : UInt8 := 'M'.toUInt8

/-- The other event codes do nothing. -/
def SystemEvent.processMessage (s : SystemEvent) : Except Fault (World × Bool) :=
  if s.eventCode = eventCodeEndOfMarketHours then
    .ok ({ w with marketCloseTimestamp := header.timestamp + 1 }, true)
  else .ok (w, true)

def TradeNonCross.processMessage (t : TradeNonCross) : Except Fault (World × Bool) :=
  if isAfterHours w.marketCloseTimestamp header.timestamp then .ok (w, false)
  else do
    let w ← handleTrade w header.timestamp header.stockLocate t.price t.shares t.matchNumber
    return (w, true)

end ProcessMessage

def Message.processMessage (b : Build) (w : World) (m : Message) : Except Fault (World × Bool) :=
  match m.body with
  | .addOrder o => o.processMessage b w m.header
  | .addOrderMPID o => o.processMessage b w m.header
  | .brokenTrade t => t.processMessage w
  | .crossTrade t => t.processMessage w m.header
  | .orderCancel o => o.processMessage b w
  | .orderDelete o => o.processMessage b w
  | .orderExecuted o => o.processMessage b w m.header
  | .orderExecutedWithPrice o => o.processMessage b w m.header
  | .orderReplace o => o.processMessage b w m.header
  | .stockTradingAction a => a.processMessage w m.header
  | .systemEvent s => s.processMessage w m.header
  | .tradeNonCross t => t.processMessage w m.header

/-! ## The sequential program -/

/-- What the consumer does with one message. -/
def consume (b : Build) (w : World) (m : Message) : Except Fault World := do
  let w := { w with currentPeriod := processHeaderTimestamp w.currentPeriod m.timestamp }
  let (w, _) ← m.processMessage b w
  return w

/-- The messages one after the other. -/
def processAll (b : Build) (w : World) (stream : List Message) : Except Fault World :=
  stream.foldlM (consume b) w

theorem processAll_eq_ok {b : Build} {w w' : World} {stream : List Message} :
    processAll b w stream = .ok w' ↔ Run (Steps (consume b)) w stream w' := foldlM_eq_ok

end NasdaqItch
