import NasdaqItch.Reachable

/-!
# The price of an execution

`executeActiveOrder` returns the price through a reference it took before the branch. On a
partial fill the entry is still there and holds the price the order was last added with, since no
other operation changes a price (`price_lastAdded`). On a full fill `deleteActiveOrder` has erased
the entry, and the reference dangles (`full_fill_dangles`).
-/

namespace NasdaqItch

open UnorderedMap Runs

/-- The price at which an operation adds order `n` to the book, if it does. `emplace` adds
nothing where there is an entry already. -/
def BookOperation.addsAt (book : OrderBook) (n : UInt64) : BookOperation → Option UInt32
  | .add n' data => if n' = n ∧ n' ∉ book then some data.price else none
  | .replace original n' data =>
      if n' = n ∧ n' ∉ book.erase original then some data.price else none
  | _ => none

def Message.addsAt (w : World) (n : UInt64) (m : Message) : Option UInt32 :=
  (m.bookOperation w.marketCloseTimestamp).addsAt w.orderBook n

/-- The price at which order `n` was last added during a stream, by an add or a replace. -/
inductive LastAdded (b : Build) (n : UInt64) : List Message → UInt32 → Prop
  | added {stream w m price} : processAll b World.initial stream = .ok w →
      m.addsAt w n = some price → LastAdded b n (stream ++ [m]) price
  | earlier {stream w m price} : processAll b World.initial stream = .ok w →
      m.addsAt w n = none → LastAdded b n stream price → LastAdded b n (stream ++ [m]) price

/-- **Pricing from a live entry**: the execution of `q` shares of order `n` returns the price the
order was last added with, which is what the VWAP bookkeeping gets, and the book still has an
entry of the order with this price when the price is read. -/
structure PricedFromLiveEntry (b : Build) (stream : List Message) (w : World) (n : UInt64)
    (q : UInt32) (book : OrderBook) (price : UInt32) : Prop where
  execute : OrderBook.executeActiveOrder b w.orderBook n q = .ok (book, price)
  passed : ∀ timestamp stockLocate matchNumber,
    handleOrderExecuted b w timestamp stockLocate n q matchNumber =
      { w with orderBook := book }.handleOrderOrTradeExecuted
        ⟨stockLocate, price, q.toUInt64, timestamp, matchNumber⟩
  lastAdded : LastAdded b n stream price
  live : ∃ entry, book.lookup n = some entry ∧ entry.price = price

section

variable {b : Build} {book book' : OrderBook} {n : UInt64} {q price : UInt32}
  {data data' : ActiveOrderData} {operation : BookOperation} {stream : List Message} {w : World}

/-- **Where an entry's price comes from**: the operation added the order at this price, or the
entry had it before. -/
theorem BookOperation.Performs.price_eq (h : operation.Performs b book book' price)
    (hdata : book'.lookup n = some data) :
    operation.addsAt book n = some data.price ∨
      operation.addsAt book n = none ∧ ∃ data', book.lookup n = some data' ∧
        data'.price = data.price := by
  cases h with
  | keep => exact Or.inr ⟨rfl, data, hdata, rfl⟩
  | @add n' added _ =>
      rcases lookup_emplace_cases hdata with ⟨hnew, rfl⟩ | ⟨hold, hdata⟩
      · exact Or.inl (if_pos hnew)
      · exact Or.inr ⟨if_neg hold, data, hdata, rfl⟩
  | @cancel n' shares old hold _ =>
      refine Or.inr ⟨rfl, ?_⟩
      rw [lookup_insert_if] at hdata
      split_ifs at hdata with hn
      · subst hn
        obtain rfl := Option.some.inj hdata
        exact ⟨old, hold, rfl⟩
      · exact ⟨data, hdata, rfl⟩
  | @delete n' _ =>
      refine Or.inr ⟨rfl, data, ?_, rfl⟩
      rw [lookup_erase_if] at hdata
      split_ifs at hdata
      exact hdata
  | @execute n' shares old hold =>
      refine Or.inr ⟨rfl, ?_⟩
      rw [OrderBook.lookup_afterExecution] at hdata
      split_ifs at hdata with hn hfull
      · subst hn
        obtain rfl := Option.some.inj hdata
        exact ⟨old, hold, rfl⟩
      · exact ⟨data, hdata, rfl⟩
  | @replace original n' added _ =>
      rcases lookup_emplace_cases hdata with ⟨hnew, rfl⟩ | ⟨hold, hdata⟩
      · exact Or.inl (if_pos hnew)
      · refine Or.inr ⟨if_neg hold, data, ?_, rfl⟩
        rw [lookup_erase_if] at hdata
        split_ifs at hdata
        exact hdata

/-- **The price of an entry** is the one its order was last added with. -/
theorem price_lastAdded (hrun : processAll b World.initial stream = .ok w)
    (hdata : w.orderBook.lookup n = some data) : LastAdded b n stream data.price := by
  have hhistory : ∀ data, w.orderBook.lookup n = some data → LastAdded b n stream data.price := by
    refine (processAll_eq_ok.1 hrun).history
      (I := fun past s => ∀ data, s.orderBook.lookup n = some data → LastAdded b n past data.price)
      ?_ ?_
    · intro data hdata
      exact absurd hdata (by simp [World.initial])
    · intro past s m t hpast hold hst data hdata
      obtain ⟨act, hbook, -, -, -⟩ := consume_eq_ok.1 hst
      obtain ⟨price, hperforms, -⟩ := bookStep_performs hbook
      have hdone := processAll_eq_ok.2 hpast
      rcases hperforms.price_eq hdata with hadds | ⟨hnone, data', hdata', hprice⟩
      · exact .added hdone hadds
      · exact .earlier hdone hnone (hprice ▸ hold data' hdata')
  exact hhistory data hdata

theorem full_fill_dangles (hdata : book.lookup n = some data) (hfull : data.numShares = q)
    (h : OrderBook.executeActiveOrder b book n q = .ok (book', price)) : n ∉ book' := by
  obtain ⟨data', hdata', rfl, -⟩ := OrderBook.executeActiveOrder_eq_ok.1 h
  obtain rfl := Option.some.inj (hdata.symm.trans hdata')
  rw [← Finmap.lookup_eq_none, OrderBook.lookup_afterExecution, if_pos rfl, if_pos hfull]

end

/-- **An execution is priced from a live entry exactly if it is partial.** After every stream,
for every order in the book and every quantity up to its shares. -/
theorem priced_from_live_entry_iff {b : Build} {stream : List Message} {w : World} {n : UInt64}
    {data : ActiveOrderData} {q : UInt32} (hrun : processAll b World.initial stream = .ok w)
    (hdata : w.orderBook.lookup n = some data) (hq : q ≤ data.numShares) :
    (∃ book price, PricedFromLiveEntry b stream w n q book price) ↔ q < data.numShares := by
  constructor
  · intro ⟨book, price, hpriced⟩
    obtain ⟨entry, hentry, -⟩ := hpriced.live
    by_contra hnot
    have hfull : data.numShares = q := UInt32.le_antisymm (UInt32.not_lt.1 hnot) hq
    exact full_fill_dangles hdata hfull hpriced.execute (Finmap.mem_of_lookup_eq_some hentry)
  · intro hlt
    have hpartial : data.numShares ≠ q := (UInt32.ne_of_lt hlt).symm
    have hexecute : OrderBook.executeActiveOrder b w.orderBook n q =
        .ok (w.orderBook.afterExecution n data q, data.price) :=
      OrderBook.executeActiveOrder_eq_ok.2 ⟨data, hdata, rfl, (if_neg hpartial).symm⟩
    refine ⟨_, _, hexecute, ?_, price_lastAdded hrun hdata, ?_⟩
    · intro timestamp stockLocate matchNumber
      unfold handleOrderExecuted
      rw [hexecute]
      rfl
    · rw [OrderBook.lookup_afterExecution, if_pos rfl, if_neg hpartial]
      exact ⟨_, rfl, rfl⟩

/-- An order of 100 shares is added and then replaced by one of 50 at another price. -/
def replacedOrder : List Message :=
  [⟨⟨'A'.toUInt8, 1, clock 10 0⟩, .addOrder ⟨7, 66, 100, [65], 100⟩⟩,
    ⟨⟨'U'.toUInt8, 1, clock 10 1⟩, .orderReplace ⟨7, 8, 50, 200⟩⟩]

/-- Twenty shares of it are executed, at the price of the replacement. -/
theorem priced_from_live_entry_partial :
    ∃ book price, PricedFromLiveEntry .release replacedOrder (World.after .release replacedOrder)
      8 20 book price :=
  (priced_from_live_entry_iff (processAll_after replacedOrder (by decide))
    (show _ = some ⟨50, 200, 1⟩ by decide) (by decide)).2 (by decide)

/-- **A dangling read.** All fifty shares are executed: the entry is gone when its price is
read. -/
theorem full_fill_not_live :
    processAll .release World.initial replacedOrder = .ok (World.after .release replacedOrder) ∧
      (World.after .release replacedOrder).orderBook.lookup 8 = some ⟨50, 200, 1⟩ ∧
      ¬ ∃ book price, PricedFromLiveEntry .release replacedOrder
        (World.after .release replacedOrder) 8 50 book price := by
  have hdata : (World.after .release replacedOrder).orderBook.lookup 8 = some ⟨50, 200, 1⟩ := by
    decide
  refine ⟨processAll_after replacedOrder (by decide), hdata, fun ⟨book, price, hpriced⟩ => ?_⟩
  obtain ⟨entry, hentry, -⟩ := hpriced.live
  exact full_fill_dangles hdata rfl hpriced.execute (Finmap.mem_of_lookup_eq_some hentry)

end NasdaqItch
