import NasdaqItch.Message

/-!
# What one message does

`consume` is a step of the order book and a step of the VWAP bookkeeping (`consume_eq_ok`). What a
message does to the book is one of six operations, and the message alone tells which
(`Message.bookOperation`); what it asks of the bookkeeping is told by the message and, for an
execution at the order's own price, by the price that the book finds (`bookStep_performs`).

Results about the book go by cases over the operations, `BookOperation.Performs`:

* `Performs.frame`: entries of orders that the operation does not name stay.
* `Performs.congr`: entries that two books agree on, they agree on afterwards.
-/

namespace NasdaqItch

open UnorderedMap Runs

/-! ## A message as a book step and a VWAP step

The order book decides on its own whether a message succeeds and what it asks of the VWAP
bookkeeping; the bookkeeping never looks at the book. Results about one of the two use its own
step only. -/

/-- What a message asks of `VWAPManager`. -/
inductive Action
  | idle
  | brokenTrade (matchNumber : UInt64)
  | tradingAction (stockLocate : UInt16) (stock : Bytes) (tradingState : UInt8)
  | execution (e : Execution)
  deriving DecidableEq

/-- What a message does to the book, and what it asks of the VWAP bookkeeping. -/
def bookStep (b : Build) (marketCloseTimestamp : UInt64) (book : OrderBook) (m : Message) :
    Except Fault (OrderBook × Action) :=
  let late := isAfterHours marketCloseTimestamp m.timestamp
  match m.body with
  | .addOrder o => do
      let book ← OrderBook.addToActiveOrders b book o.orderReferenceNumber m.stockLocate
        o.shares o.price
      return (book, .idle)
  | .addOrderMPID o => do
      let book ← OrderBook.addToActiveOrders b book o.orderReferenceNumber m.stockLocate
        o.shares o.price
      return (book, .idle)
  | .brokenTrade t => .ok (book, .brokenTrade t.matchNumber)
  | .crossTrade t =>
      .ok (book, if late ∨ t.shares = 0 then .idle
        else .execution ⟨m.stockLocate, t.crossPrice, t.shares, m.timestamp, t.matchNumber⟩)
  | .orderCancel o => do
      let book ← OrderBook.cancelActiveOrder b book o.orderReferenceNumber o.cancelledShares
      return (book, .idle)
  | .orderDelete o => do
      let book ← OrderBook.deleteActiveOrder b book o.orderReferenceNumber
      return (book, .idle)
  | .orderExecuted o =>
      if late then .ok (book, .idle)
      else do
        let (book, price) ← OrderBook.executeActiveOrder b book o.orderReferenceNumber
          o.executedShares
        return (book, .execution
          ⟨m.stockLocate, price, o.executedShares.toUInt64, m.timestamp, o.matchNumber⟩)
  | .orderExecutedWithPrice o =>
      if late ∨ o.printable = ignoreOrderExecutedWithPriceMessage then .ok (book, .idle)
      else do
        let book ← OrderBook.executeActiveOrderWithPrice b book o.orderReferenceNumber
          o.executedShares
        return (book, .execution ⟨m.stockLocate, o.executionPrice, o.executedShares.toUInt64,
          m.timestamp, o.matchNumber⟩)
  | .orderReplace o => do
      let book ← OrderBook.replaceActiveOrder b book m.stockLocate
        o.originalOrderReferenceNumber o.newOrderReferenceNumber o.shares o.price
      return (book, .idle)
  | .stockTradingAction a => .ok (book, .tradingAction m.stockLocate a.stock a.tradingState)
  | .systemEvent _ => .ok (book, .idle)
  | .tradeNonCross t =>
      .ok (book, if late then .idle
        else .execution ⟨m.stockLocate, t.price, t.shares.toUInt64, m.timestamp, t.matchNumber⟩)

/-- What an action does to the VWAP bookkeeping. -/
def vwapStep (currentPeriod : UInt8) (v : VWAPManager) : Action → Except Fault VWAPManager
  | .idle => .ok v
  | .brokenTrade matchNumber => .ok (v.handleBrokenTrade matchNumber)
  | .tradingAction stockLocate stock tradingState =>
      .ok (v.handleStockTradingAction stockLocate stock tradingState)
  | .execution e => v.handleOrderOrTradeExecuted currentPeriod e

/-- The close instant after a message. -/
def closeAfter (marketCloseTimestamp : UInt64) (m : Message) : UInt64 :=
  match m.body with
  | .systemEvent s =>
      if s.eventCode = eventCodeEndOfMarketHours then m.timestamp + 1 else marketCloseTimestamp
  | _ => marketCloseTimestamp

theorem consume_eq (b : Build) (w : World) (m : Message) :
    consume b w m = (do
      let (book, act) ← bookStep b w.marketCloseTimestamp w.orderBook m
      let currentPeriod := processHeaderTimestamp w.currentPeriod m.timestamp
      let v ← vwapStep currentPeriod w.vwapManager act
      return ⟨currentPeriod, closeAfter w.marketCloseTimestamp m, book, v⟩) := by
  obtain ⟨header, body⟩ := m
  cases body with
  | crossTrade t =>
      simp only [consume, Message.processMessage, CrossTrade.processMessage, bookStep, closeAfter,
        handleCrossTrade, World.handleOrderOrTradeExecuted]
      by_cases hlate : isAfterHours w.marketCloseTimestamp header.timestamp <;>
        by_cases hshares : t.shares = 0 <;> simp [hlate, hshares, vwapStep]
  | orderExecuted o =>
      simp only [consume, Message.processMessage, OrderExecuted.processMessage, bookStep,
        closeAfter, handleOrderExecuted, World.handleOrderOrTradeExecuted]
      by_cases hlate : isAfterHours w.marketCloseTimestamp header.timestamp <;>
        simp [hlate, vwapStep]
  | orderExecutedWithPrice o =>
      simp only [consume, Message.processMessage, OrderExecutedWithPrice.processMessage, bookStep,
        closeAfter, handleOrderExecutedWithPrice, World.handleOrderOrTradeExecuted]
      by_cases hlate : isAfterHours w.marketCloseTimestamp header.timestamp <;>
        by_cases hprint : o.printable = ignoreOrderExecutedWithPriceMessage <;>
          simp [hlate, hprint, vwapStep]
  | tradeNonCross t =>
      simp only [consume, Message.processMessage, TradeNonCross.processMessage, bookStep,
        closeAfter, handleTrade, World.handleOrderOrTradeExecuted]
      by_cases hlate : isAfterHours w.marketCloseTimestamp header.timestamp <;>
        simp [hlate, vwapStep]
  | systemEvent s =>
      simp only [consume, Message.processMessage, SystemEvent.processMessage, bookStep, closeAfter]
      by_cases hcode : s.eventCode = eventCodeEndOfMarketHours <;>
        simp [hcode, vwapStep]
  | _ =>
      simp [consume, Message.processMessage, AddOrder.processMessage, AddOrderMPID.processMessage,
        BrokenTradeOrOrderExecution.processMessage, OrderCancel.processMessage,
        OrderDelete.processMessage, OrderReplace.processMessage,
        StockTradingAction.processMessage, bookStep, vwapStep, closeAfter]

/-- **What one message does**, component by component. -/
theorem consume_eq_ok {b : Build} {w w' : World} {m : Message} :
    consume b w m = .ok w' ↔
      ∃ act, bookStep b w.marketCloseTimestamp w.orderBook m = .ok (w'.orderBook, act) ∧
        vwapStep w'.currentPeriod w.vwapManager act = .ok w'.vwapManager ∧
        w'.currentPeriod = processHeaderTimestamp w.currentPeriod m.timestamp ∧
        w'.marketCloseTimestamp = closeAfter w.marketCloseTimestamp m := by
  rw [consume_eq]
  simp only [bind_eq_ok, pure_eq_ok]
  constructor
  · intro h
    obtain ⟨⟨book, act⟩, hbook, v, hv, rfl⟩ := h
    exact ⟨act, hbook, hv, rfl, rfl⟩
  · intro h
    obtain ⟨act, hbook, hv, hperiod, hclose⟩ := h
    exact ⟨(w'.orderBook, act), hbook, w'.vwapManager, hperiod ▸ hv, by rw [← hperiod, ← hclose]⟩

/-! ## The operations on the book -/

/-- What a message asks of the order book. -/
inductive BookOperation
  | keep
  | add (orderReferenceNumber : UInt64) (data : ActiveOrderData)
  | cancel (orderReferenceNumber : UInt64) (numCancelledShares : UInt32)
  | delete (orderReferenceNumber : UInt64)
  | execute (orderReferenceNumber : UInt64) (numExecutedShares : UInt32)
  | replace (original new : UInt64) (data : ActiveOrderData)

/-- The orders an operation names. -/
def BookOperation.references : BookOperation → List UInt64
  | .keep => []
  | .add n _ => [n]
  | .cancel n _ => [n]
  | .delete n => [n]
  | .execute n _ => [n]
  | .replace n n' _ => [n, n']

/-- The orders an operation adds. -/
def BookOperation.addedReferences : BookOperation → List UInt64
  | .add n _ => [n]
  | .replace _ n' _ => [n']
  | _ => []

/-- An operation on a book succeeds, with this book afterwards and, for an execution, this
price found (for the others, a zero). -/
inductive BookOperation.Performs (b : Build) (book : OrderBook) :
    BookOperation → OrderBook → UInt32 → Prop
  | keep : Performs b book .keep book 0
  | add {n data} : (b.asserts = true → n ∉ book) →
      Performs b book (.add n data) (emplace book n data) 0
  | cancel {n shares data} : book.lookup n = some data →
      (b.asserts = true → data.numShares > shares) →
      Performs b book (.cancel n shares)
        (book.insert n { data with numShares := data.numShares - shares }) 0
  | delete {n} : (b.asserts = true → n ∈ book) → Performs b book (.delete n) (book.erase n) 0
  | execute {n shares data} : book.lookup n = some data →
      Performs b book (.execute n shares) (book.afterExecution n data shares)
        (if data.numShares = shares then b.readErased data else data.price)
  | replace {n n' data} : (b.asserts = true → n ∈ book ∧ n' ∉ book.erase n) →
      Performs b book (.replace n n' data) (emplace (book.erase n) n' data) 0

namespace Message

/-- The orders a message names. A trade names one too, but nothing reads it. -/
def orderReferences (m : Message) : List UInt64 :=
  match m.body with
  | .addOrder o => [o.orderReferenceNumber]
  | .addOrderMPID o => [o.orderReferenceNumber]
  | .orderCancel o => [o.orderReferenceNumber]
  | .orderDelete o => [o.orderReferenceNumber]
  | .orderExecuted o => [o.orderReferenceNumber]
  | .orderExecutedWithPrice o => [o.orderReferenceNumber]
  | .orderReplace o => [o.originalOrderReferenceNumber, o.newOrderReferenceNumber]
  | _ => []

/-- The orders that a message adds. -/
def addedReferences (m : Message) : List UInt64 :=
  match m.body with
  | .addOrder o => [o.orderReferenceNumber]
  | .addOrderMPID o => [o.orderReferenceNumber]
  | .orderReplace o => [o.newOrderReferenceNumber]
  | _ => []

/-- The operation a message asks for. -/
def bookOperation (marketCloseTimestamp : UInt64) (m : Message) : BookOperation :=
  let late := isAfterHours marketCloseTimestamp m.timestamp
  match m.body with
  | .addOrder o => .add o.orderReferenceNumber ⟨o.shares, o.price, m.stockLocate⟩
  | .addOrderMPID o => .add o.orderReferenceNumber ⟨o.shares, o.price, m.stockLocate⟩
  | .orderCancel o => .cancel o.orderReferenceNumber o.cancelledShares
  | .orderDelete o => .delete o.orderReferenceNumber
  | .orderExecuted o =>
      if late then .keep else .execute o.orderReferenceNumber o.executedShares
  | .orderExecutedWithPrice o =>
      if late ∨ o.printable = ignoreOrderExecutedWithPriceMessage then .keep
      else .execute o.orderReferenceNumber o.executedShares
  | .orderReplace o =>
      .replace o.originalOrderReferenceNumber o.newOrderReferenceNumber
        ⟨o.shares, o.price, m.stockLocate⟩
  | _ => .keep

/-- What a message asks of the VWAP bookkeeping, given the price that the book finds. -/
def action (marketCloseTimestamp : UInt64) (m : Message) (price : UInt32) : Action :=
  let late := isAfterHours marketCloseTimestamp m.timestamp
  match m.body with
  | .brokenTrade t => .brokenTrade t.matchNumber
  | .crossTrade t => if late ∨ t.shares = 0 then .idle
      else .execution ⟨m.stockLocate, t.crossPrice, t.shares, m.timestamp, t.matchNumber⟩
  | .orderExecuted o => if late then .idle
      else .execution
        ⟨m.stockLocate, price, o.executedShares.toUInt64, m.timestamp, o.matchNumber⟩
  | .orderExecutedWithPrice o =>
      if late ∨ o.printable = ignoreOrderExecutedWithPriceMessage then .idle
      else .execution ⟨m.stockLocate, o.executionPrice, o.executedShares.toUInt64, m.timestamp,
        o.matchNumber⟩
  | .stockTradingAction a => .tradingAction m.stockLocate a.stock a.tradingState
  | .tradeNonCross t => if late then .idle
      else .execution ⟨m.stockLocate, t.price, t.shares.toUInt64, m.timestamp, t.matchNumber⟩
  | _ => .idle

theorem mem_references {close n : UInt64} {m : Message}
    (h : n ∈ (m.bookOperation close).references) : n ∈ m.orderReferences := by
  obtain ⟨header, body⟩ := m
  cases body with
  | orderExecuted o =>
      simp only [bookOperation] at h
      split_ifs at h
      · exact absurd h List.not_mem_nil
      · exact h
  | orderExecutedWithPrice o =>
      simp only [bookOperation] at h
      split_ifs at h
      · exact absurd h List.not_mem_nil
      · exact h
  | _ => exact h

theorem mem_addedReferences {close n : UInt64} {m : Message}
    (h : n ∈ (m.bookOperation close).addedReferences) : n ∈ m.addedReferences := by
  obtain ⟨header, body⟩ := m
  cases body with
  | orderExecuted o =>
      simp only [bookOperation] at h
      split_ifs at h <;> exact absurd h List.not_mem_nil
  | orderExecutedWithPrice o =>
      simp only [bookOperation] at h
      split_ifs at h <;> exact absurd h List.not_mem_nil
  | _ => exact h

theorem bookOperation_of_execution {close : UInt64} (m : Message) {price : UInt32} {e : Execution}
    (h : m.action close price = .execution e) :
    m.bookOperation close = .keep ∨ ∃ n shares, m.bookOperation close = .execute n shares := by
  obtain ⟨header, body⟩ := m
  cases body with
  | orderExecuted o =>
      simp only [bookOperation]
      split_ifs
      · exact Or.inl rfl
      · exact Or.inr ⟨_, _, rfl⟩
  | orderExecutedWithPrice o =>
      simp only [bookOperation]
      split_ifs
      · exact Or.inl rfl
      · exact Or.inr ⟨_, _, rfl⟩
  | addOrder | addOrderMPID | orderCancel | orderDelete | orderReplace => simp [action] at h
  | _ => exact Or.inl rfl

end Message

section Book

variable {b : Build} {close : UInt64} {book book' book₁ book₁' : OrderBook} {m : Message}
  {act act' : Action} {n : UInt64} {price price' : UInt32} {operation : BookOperation}

/-- **A book step is the operation of its message.** -/
theorem bookStep_performs (h : bookStep b close book m = .ok (book₁, act)) :
    ∃ price, (m.bookOperation close).Performs b book book₁ price ∧ act = m.action close price := by
  obtain ⟨header, body⟩ := m
  cases body with
  | addOrder o =>
      simp only [bookStep, bind_eq_ok, pure_eq_ok, Prod.mk.injEq,
        OrderBook.addToActiveOrders_eq_ok] at h
      obtain ⟨_, ⟨hnew, rfl⟩, rfl, rfl⟩ := h
      exact ⟨0, .add hnew, rfl⟩
  | addOrderMPID o =>
      simp only [bookStep, bind_eq_ok, pure_eq_ok, Prod.mk.injEq,
        OrderBook.addToActiveOrders_eq_ok] at h
      obtain ⟨_, ⟨hnew, rfl⟩, rfl, rfl⟩ := h
      exact ⟨0, .add hnew, rfl⟩
  | orderCancel o =>
      simp only [bookStep, bind_eq_ok, pure_eq_ok, Prod.mk.injEq,
        OrderBook.cancelActiveOrder_eq_ok] at h
      obtain ⟨_, ⟨data, hdata, hshares, rfl⟩, rfl, rfl⟩ := h
      exact ⟨0, .cancel hdata hshares, rfl⟩
  | orderDelete o =>
      simp only [bookStep, bind_eq_ok, pure_eq_ok, Prod.mk.injEq,
        OrderBook.deleteActiveOrder_eq_ok] at h
      obtain ⟨_, ⟨hmem, rfl⟩, rfl, rfl⟩ := h
      exact ⟨0, .delete hmem, rfl⟩
  | orderExecuted o =>
      simp only [bookStep] at h
      simp only [Message.bookOperation, Message.action]
      split_ifs at h ⊢
      · obtain ⟨rfl, rfl⟩ := Prod.mk.inj (Except.ok.inj h)
        exact ⟨0, .keep, rfl⟩
      · simp only [bind_eq_ok, pure_eq_ok, Prod.mk.injEq, Prod.exists,
          OrderBook.executeActiveOrder_eq_ok] at h
        obtain ⟨_, _, ⟨data, hdata, rfl, rfl⟩, rfl, rfl⟩ := h
        exact ⟨_, .execute hdata, rfl⟩
  | orderExecutedWithPrice o =>
      simp only [bookStep] at h
      simp only [Message.bookOperation, Message.action]
      split_ifs at h ⊢
      · obtain ⟨rfl, rfl⟩ := Prod.mk.inj (Except.ok.inj h)
        exact ⟨0, .keep, rfl⟩
      · simp only [bind_eq_ok, pure_eq_ok, Prod.mk.injEq,
          OrderBook.executeActiveOrderWithPrice_eq_ok] at h
        obtain ⟨_, ⟨data, hdata, rfl⟩, rfl, rfl⟩ := h
        exact ⟨_, .execute hdata, rfl⟩
  | orderReplace o =>
      simp only [bookStep, bind_eq_ok, pure_eq_ok, Prod.mk.injEq,
        OrderBook.replaceActiveOrder_eq_ok] at h
      obtain ⟨_, ⟨hmem, rfl⟩, rfl, rfl⟩ := h
      exact ⟨0, .replace hmem, rfl⟩
  | _ =>
      obtain ⟨rfl, rfl⟩ := Prod.mk.inj (Except.ok.inj h)
      exact ⟨0, .keep, rfl⟩

/-- The other way round: where the operation succeeds, so does the book step. -/
theorem bookStep_of_performs (h : (m.bookOperation close).Performs b book book₁ price) :
    bookStep b close book m = .ok (book₁, m.action close price) := by
  obtain ⟨header, body⟩ := m
  cases body with
  | addOrder o =>
      cases h with
      | add hnew =>
          simp only [bookStep, bind_eq_ok, pure_eq_ok, Prod.mk.injEq,
            OrderBook.addToActiveOrders_eq_ok]
          exact ⟨_, ⟨hnew, rfl⟩, rfl, rfl⟩
  | addOrderMPID o =>
      cases h with
      | add hnew =>
          simp only [bookStep, bind_eq_ok, pure_eq_ok, Prod.mk.injEq,
            OrderBook.addToActiveOrders_eq_ok]
          exact ⟨_, ⟨hnew, rfl⟩, rfl, rfl⟩
  | orderCancel o =>
      cases h with
      | cancel hdata hshares =>
          simp only [bookStep, bind_eq_ok, pure_eq_ok, Prod.mk.injEq,
            OrderBook.cancelActiveOrder_eq_ok]
          exact ⟨_, ⟨_, hdata, hshares, rfl⟩, rfl, rfl⟩
  | orderDelete o =>
      cases h with
      | delete hmem =>
          simp only [bookStep, bind_eq_ok, pure_eq_ok, Prod.mk.injEq,
            OrderBook.deleteActiveOrder_eq_ok]
          exact ⟨_, ⟨hmem, rfl⟩, rfl, rfl⟩
  | orderExecuted o =>
      simp only [Message.bookOperation] at h
      simp only [bookStep, Message.action]
      split_ifs at h ⊢
      · cases h
        rfl
      · cases h with
        | execute hdata =>
            simp only [bind_eq_ok, pure_eq_ok, Prod.mk.injEq, Prod.exists,
              OrderBook.executeActiveOrder_eq_ok]
            exact ⟨_, _, ⟨_, hdata, rfl, rfl⟩, rfl, rfl⟩
  | orderExecutedWithPrice o =>
      simp only [Message.bookOperation] at h
      simp only [bookStep, Message.action]
      split_ifs at h ⊢
      · cases h
        rfl
      · cases h with
        | execute hdata =>
            simp only [bind_eq_ok, pure_eq_ok, Prod.mk.injEq,
              OrderBook.executeActiveOrderWithPrice_eq_ok]
            exact ⟨_, ⟨_, hdata, rfl⟩, rfl, trivial⟩
  | orderReplace o =>
      cases h with
      | replace hmem =>
          simp only [bookStep, bind_eq_ok, pure_eq_ok, Prod.mk.injEq,
            OrderBook.replaceActiveOrder_eq_ok]
          exact ⟨_, ⟨hmem, rfl⟩, rfl, rfl⟩
  | _ =>
      cases h
      rfl

theorem OrderBook.lookup_afterExecution (book : OrderBook) (ref : UInt64) (data : ActiveOrderData)
    (executed : UInt32) (n : UInt64) : (book.afterExecution ref data executed).lookup n =
      if n = ref then
        if data.numShares = executed then none
        else some { data with numShares := data.numShares - executed }
      else book.lookup n := by
  unfold OrderBook.afterExecution
  by_cases hfull : data.numShares = executed
  · simp only [hfull, if_true, lookup_erase_if]
  · simp only [hfull, if_false, lookup_insert_if]

theorem BookOperation.Performs.frame (h : operation.Performs b book book₁ price)
    (hn : n ∉ operation.references) : book₁.lookup n = book.lookup n := by
  have hne : ∀ k ∈ operation.references, n ≠ k := fun k hk heq => hn (heq ▸ hk)
  cases h with
  | keep => rfl
  | add => rw [lookup_emplace_if, if_neg (hne _ List.mem_cons_self)]
  | cancel => rw [lookup_insert_if, if_neg (hne _ List.mem_cons_self)]
  | delete => rw [lookup_erase_if, if_neg (hne _ List.mem_cons_self)]
  | execute => rw [OrderBook.lookup_afterExecution, if_neg (hne _ List.mem_cons_self)]
  | replace =>
      have hnew := hne _ (List.mem_cons_of_mem _ List.mem_cons_self)
      rw [lookup_emplace_if, if_neg hnew, lookup_erase_if, if_neg (hne _ List.mem_cons_self)]

/-- An operation that finds the same in two books finds the same price, and the books agree
afterwards wherever they agreed. -/
theorem BookOperation.Performs.congr (h : operation.Performs b book book₁ price)
    (h' : operation.Performs b book' book₁' price')
    (hsame : ∀ n ∈ operation.references, book.lookup n = book'.lookup n) :
    price = price' ∧ ∀ n, book.lookup n = book'.lookup n → book₁.lookup n = book₁'.lookup n := by
  cases h with
  | keep =>
      cases h'
      exact ⟨rfl, fun n hn => hn⟩
  | add =>
      cases h'
      refine ⟨rfl, fun n hn => ?_⟩
      rw [lookup_emplace_if, lookup_emplace_if, hn, hsame _ List.mem_cons_self]
  | cancel hdata =>
      cases h' with
      | cancel hdata' =>
          rw [hsame _ List.mem_cons_self, hdata', Option.some.injEq] at hdata
          refine ⟨rfl, fun n hn => ?_⟩
          rw [lookup_insert_if, lookup_insert_if, hn, hdata]
  | delete =>
      cases h'
      refine ⟨rfl, fun n hn => ?_⟩
      rw [lookup_erase_if, lookup_erase_if, hn]
  | execute hdata =>
      cases h' with
      | execute hdata' =>
          rw [hsame _ List.mem_cons_self, hdata', Option.some.injEq] at hdata
          subst hdata
          refine ⟨rfl, fun n hn => ?_⟩
          rw [OrderBook.lookup_afterExecution, OrderBook.lookup_afterExecution, hn]
  | replace =>
      cases h'
      refine ⟨rfl, fun n hn => ?_⟩
      rw [lookup_emplace_if, lookup_emplace_if, lookup_erase_if, lookup_erase_if, lookup_erase_if,
        lookup_erase_if, hn, hsame _ (List.mem_cons_of_mem _ List.mem_cons_self)]

theorem bookStep_frame (h : bookStep b close book m = .ok (book₁, act))
    (hn : n ∉ m.orderReferences) : book₁.lookup n = book.lookup n := by
  obtain ⟨price, hperforms, -⟩ := bookStep_performs h
  exact hperforms.frame fun href => hn (Message.mem_references href)

/-- What a message does depends on the entries of the orders it names only. -/
theorem bookStep_congr (h : bookStep b close book m = .ok (book₁, act))
    (h' : bookStep b close book' m = .ok (book₁', act'))
    (hsame : ∀ n ∈ m.orderReferences, book.lookup n = book'.lookup n) :
    act = act' ∧ ∀ n ∈ m.orderReferences, book₁.lookup n = book₁'.lookup n := by
  obtain ⟨price, hperforms, rfl⟩ := bookStep_performs h
  obtain ⟨price', hperforms', rfl⟩ := bookStep_performs h'
  obtain ⟨rfl, hagree⟩ :=
    hperforms.congr hperforms' fun n href => hsame n (Message.mem_references href)
  exact ⟨rfl, fun n hn => hagree n (hsame n hn)⟩

end Book

/-! ## What a message asks of the bookkeeping -/

/-- The volume and match number that a message brings to the VWAP bookkeeping, if it brings any:
the executions, trades and crosses that are not dropped. -/
def Message.traded (marketCloseTimestamp : UInt64) (m : Message) : Option (UInt64 × UInt64) :=
  if isAfterHours marketCloseTimestamp m.timestamp then none
  else match m.body with
    | .crossTrade t => if t.shares = 0 then none else some (t.shares, t.matchNumber)
    | .orderExecuted o => some (o.executedShares.toUInt64, o.matchNumber)
    | .orderExecutedWithPrice o =>
        if o.printable = ignoreOrderExecutedWithPriceMessage then none
        else some (o.executedShares.toUInt64, o.matchNumber)
    | .tradeNonCross t => some (t.shares.toUInt64, t.matchNumber)
    | _ => none

namespace Message

/-- The match number of an execution, trade or cross. -/
def matchNumber (m : Message) : Option UInt64 :=
  match m.body with
  | .crossTrade t => some t.matchNumber
  | .orderExecuted o => some o.matchNumber
  | .orderExecutedWithPrice o => some o.matchNumber
  | .tradeNonCross t => some t.matchNumber
  | _ => none

/-- The shares of an execution, trade or cross, printable ones only. -/
def executedShares (m : Message) : UInt64 :=
  match m.body with
  | .crossTrade t => t.shares
  | .orderExecuted o => o.executedShares.toUInt64
  | .orderExecutedWithPrice o =>
      if o.printable = ignoreOrderExecutedWithPriceMessage then 0 else o.executedShares.toUInt64
  | .tradeNonCross t => t.shares.toUInt64
  | _ => 0

/-- The two readings of a message agree on the executions that are not dropped. -/
theorem traded_eq_some {close volume n : UInt64} {m : Message}
    (h : m.traded close = some (volume, n)) :
    isAfterHours close m.timestamp = false ∧ m.executedShares = volume ∧
      m.matchNumber = some n := by
  have hlate : isAfterHours close m.timestamp = false := by
    by_contra hlate
    simp [traded, hlate] at h
  refine ⟨hlate, ?_⟩
  obtain ⟨header, body⟩ := m
  cases body with
  | crossTrade t =>
      by_cases hshares : t.shares = 0
      · simp [traded, hlate, hshares] at h
      · simpa [traded, hlate, hshares, executedShares, matchNumber] using h
  | orderExecutedWithPrice o =>
      by_cases hprint : o.printable = ignoreOrderExecutedWithPriceMessage
      · simp [traded, hlate, hprint] at h
      · simpa [traded, hlate, hprint, executedShares, matchNumber] using h
  | orderExecuted | tradeNonCross =>
      simpa [traded, hlate, executedShares, matchNumber] using h
  | _ => simp [traded, hlate] at h

theorem executedShares_of_not_traded {close : UInt64} {m : Message}
    (hlate : isAfterHours close m.timestamp = false) (h : m.traded close = none) :
    m.executedShares = 0 := by
  obtain ⟨header, body⟩ := m
  cases body with
  | crossTrade t =>
      by_cases hshares : t.shares = 0
      · exact hshares
      · simp [traded, hlate, hshares] at h
  | orderExecutedWithPrice o =>
      by_cases hprint : o.printable = ignoreOrderExecutedWithPriceMessage
      · exact if_pos hprint
      · simp [traded, hlate, hprint] at h
  | orderExecuted | tradeNonCross => simp [traded, hlate] at h
  | _ => rfl

theorem traded_eq_none {close : UInt64} {m : Message}
    (h : (∃ t, m.body = .brokenTrade t) ∨ ∃ a, m.body = .stockTradingAction a) :
    m.traded close = none := by
  unfold Message.traded
  split_ifs
  · rfl
  · rcases h with ⟨t, ht⟩ | ⟨a, ha⟩
    · rw [ht]
    · rw [ha]

end Message

/-- What a message asks of the VWAP bookkeeping, as far as the message itself tells. -/
inductive Asks (marketCloseTimestamp : UInt64) (m : Message) : Action → Prop
  | idle : m.traded marketCloseTimestamp = none → (∀ t, m.body ≠ .brokenTrade t) →
      (∀ a, m.body ≠ .stockTradingAction a) → Asks marketCloseTimestamp m .idle
  | brokenTrade (t : BrokenTradeOrOrderExecution) : m.body = .brokenTrade t →
      Asks marketCloseTimestamp m (.brokenTrade t.matchNumber)
  | tradingAction (a : StockTradingAction) : m.body = .stockTradingAction a →
      Asks marketCloseTimestamp m (.tradingAction m.stockLocate a.stock a.tradingState)
  | execution (price : UInt32) (volume matchNumber : UInt64) :
      m.traded marketCloseTimestamp = some (volume, matchNumber) →
      Asks marketCloseTimestamp m
        (.execution ⟨m.stockLocate, price, volume, m.timestamp, matchNumber⟩)

theorem asks_action (close : UInt64) (m : Message) (price : UInt32) :
    Asks close m (m.action close price) := by
  obtain ⟨header, body⟩ := m
  cases body with
  | crossTrade o | orderExecutedWithPrice o =>
      simp only [Message.action]
      split_ifs with h
      · exact .idle (by rcases h with h | h <;> simp [Message.traded, h]) (by simp) (by simp)
      · rw [not_or] at h
        exact .execution _ _ _ (by simp [Message.traded, h.1, h.2])
  | tradeNonCross o | orderExecuted o =>
      simp only [Message.action]
      split_ifs with h
      · exact .idle (by simp [Message.traded, h]) (by simp) (by simp)
      · exact .execution _ _ _ (by simp [Message.traded, h])
  | brokenTrade t => exact .brokenTrade t rfl
  | stockTradingAction a => exact .tradingAction a rfl
  | _ => exact .idle (by simp [Message.traded]) (by simp) (by simp)

/-- **What a message asks for.** Only the price of an execution depends on the book. -/
theorem bookStep_asks {b : Build} {close : UInt64} {book book' : OrderBook} {m : Message}
    {act : Action} (h : bookStep b close book m = .ok (book', act)) : Asks close m act := by
  obtain ⟨price, -, rfl⟩ := bookStep_performs h
  exact asks_action close m price

theorem Asks.execution_eq {close : UInt64} {m : Message} {e : Execution}
    (h : Asks close m (.execution e)) : e.timestamp = m.timestamp ∧
      e.stockLocate = m.stockLocate ∧ m.traded close = some (e.volume, e.matchNumber) := by
  cases h with
  | execution price volume matchNumber ht => exact ⟨rfl, rfl, ht⟩

end NasdaqItch
