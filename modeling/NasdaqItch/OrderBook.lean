import NasdaqItch.Basic
import NasdaqItch.Lib.Run
import NasdaqItch.Lib.UnorderedMap

/-!
# The order book

`OrderBook` of `src/bookkeeping/OrderBook.cpp`: the active orders by reference number, and the
operations that keep them, each with the asserts it carries.

Two things depend on how the program was built, and are collected in a `Build`. The asserts are
only there without `NDEBUG` (the release build drops them). And `executeActiveOrder` takes a
reference to the order's entry, erases the entry on a full fill, and then reads the price
through the reference: the language leaves open what it finds there.

Every operation has one lemma that says what its success means (`_eq_ok`); later proofs use
these and never unfold the operation.
-/

namespace NasdaqItch

open UnorderedMap Runs

structure ActiveOrderData where
  numShares : UInt32
  price : UInt32
  stockLocate : UInt16
  deriving DecidableEq, Repr

/-- How the program was compiled, and what its undefined read finds. -/
structure Build where
  /-- Whether `assert` is compiled in. -/
  asserts : Bool
  /-- The price read through a reference to an entry that was just erased; the argument is what
  the entry held. -/
  readErased : ActiveOrderData → UInt32

/-- `assert`. -/
def Build.assert (b : Build) (condition : Prop) [Decidable condition] : Except Fault Unit :=
  if b.asserts ∧ ¬ condition then .error .assertionFailed else .ok ()

/-- `_activeOrdersBook`. -/
abbrev OrderBook := UnorderedMap UInt64 ActiveOrderData

namespace OrderBook

/-- `_activeOrdersBook.at`. -/
def at_ (book : OrderBook) (orderReferenceNumber : UInt64) : Except Fault ActiveOrderData :=
  match book.lookup orderReferenceNumber with
  | some data => .ok data
  | none => .error .outOfRange

variable (b : Build) (book : OrderBook)

def addToActiveOrders (orderReferenceNumber : UInt64) (stockLocate : UInt16)
    (numShares price : UInt32) : Except Fault OrderBook := do
  b.assert (orderReferenceNumber ∉ book)
  let book := emplace book orderReferenceNumber ⟨numShares, price, stockLocate⟩
  b.assert (orderReferenceNumber ∈ book)
  return book

def deleteActiveOrder (orderReferenceNumber : UInt64) : Except Fault OrderBook := do
  b.assert (orderReferenceNumber ∈ book)
  return book.erase orderReferenceNumber

/-- The `if` that `executeActiveOrder` and `executeActiveOrderWithPrice` share. -/
def reduceShares (orderReferenceNumber : UInt64) (data : ActiveOrderData)
    (numExecutedShares : UInt32) : Except Fault OrderBook :=
  let numOutstandingSharesOnOrder := data.numShares - numExecutedShares
  if numOutstandingSharesOnOrder = 0 then
    deleteActiveOrder b book orderReferenceNumber
  else
    .ok (book.insert orderReferenceNumber
      { data with numShares := data.numShares - numExecutedShares })

/-- `data.getPrice()` at the end of `executeActiveOrder`: `data` still refers to the entry of
this order, if the map still has one. -/
def readPrice (orderReferenceNumber : UInt64) (data : ActiveOrderData) : UInt32 :=
  match book.lookup orderReferenceNumber with
  | some entry => entry.price
  | none => b.readErased data

/-- The match number is a parameter of the source's function and is not used there. -/
def executeActiveOrder (orderReferenceNumber : UInt64) (numExecutedShares : UInt32) :
    Except Fault (OrderBook × UInt32) := do
  b.assert (orderReferenceNumber ∈ book)
  let data ← book.at_ orderReferenceNumber
  let book ← reduceShares b book orderReferenceNumber data numExecutedShares
  return (book, readPrice b book orderReferenceNumber data)

def executeActiveOrderWithPrice (orderReferenceNumber : UInt64) (numExecutedShares : UInt32) :
    Except Fault OrderBook := do
  b.assert (orderReferenceNumber ∈ book)
  let data ← book.at_ orderReferenceNumber
  reduceShares b book orderReferenceNumber data numExecutedShares

def cancelActiveOrder (orderReferenceNumber : UInt64) (numCancelledShares : UInt32) :
    Except Fault OrderBook := do
  b.assert (orderReferenceNumber ∈ book)
  let data ← book.at_ orderReferenceNumber
  b.assert (data.numShares > numCancelledShares)
  return book.insert orderReferenceNumber
    { data with numShares := data.numShares - numCancelledShares }

def replaceActiveOrder (stockLocate : UInt16) (originalOrderReferenceNumber
    newOrderReferenceNumber : UInt64) (newNumShares newPrice : UInt32) :
    Except Fault OrderBook := do
  b.assert (originalOrderReferenceNumber ∈ book)
  let book ← deleteActiveOrder b book originalOrderReferenceNumber
  addToActiveOrders b book newOrderReferenceNumber stockLocate newNumShares newPrice

end OrderBook

/-! ## What success means -/

@[simp] theorem Build.assert_eq_ok {b : Build} {condition : Prop} [Decidable condition]
    {u : Unit} : b.assert condition = .ok u ↔ (b.asserts = true → condition) := by
  unfold Build.assert
  split_ifs with h
  · simp [h.1, h.2]
  · simpa using h

namespace OrderBook

variable {b : Build} {book book' : OrderBook} {ref ref' : UInt64} {n price : UInt32}
  {locate : UInt16} {data : ActiveOrderData}

@[simp] theorem at_eq_ok : book.at_ ref = .ok data ↔ book.lookup ref = some data := by
  unfold at_
  cases book.lookup ref <;> simp

theorem addToActiveOrders_eq_ok :
    addToActiveOrders b book ref locate n price = .ok book' ↔
      (b.asserts = true → ref ∉ book) ∧ book' = emplace book ref ⟨n, price, locate⟩ := by
  simp only [addToActiveOrders, bind_eq_ok, pure_eq_ok, Build.assert_eq_ok]
  constructor
  · rintro ⟨-, hnew, -, -, rfl⟩
    exact ⟨hnew, rfl⟩
  · rintro ⟨hnew, rfl⟩
    exact ⟨(), hnew, (), fun _ => mem_emplace_self .., rfl⟩

theorem deleteActiveOrder_eq_ok :
    deleteActiveOrder b book ref = .ok book' ↔
      (b.asserts = true → ref ∈ book) ∧ book' = book.erase ref := by
  simp only [deleteActiveOrder, bind_eq_ok, pure_eq_ok, Build.assert_eq_ok]
  constructor
  · rintro ⟨-, hmem, rfl⟩
    exact ⟨hmem, rfl⟩
  · rintro ⟨hmem, rfl⟩
    exact ⟨(), hmem, rfl⟩

/-- The book after some of an order's shares were executed. -/
def afterExecution (book : OrderBook) (ref : UInt64) (data : ActiveOrderData) (n : UInt32) :
    OrderBook :=
  if data.numShares = n then book.erase ref
  else book.insert ref { data with numShares := data.numShares - n }

theorem reduceShares_eq_ok (h : book.lookup ref = some data) :
    reduceShares b book ref data n = .ok book' ↔ book' = afterExecution book ref data n := by
  have hmem : ref ∈ book := Finmap.mem_of_lookup_eq_some h
  unfold reduceShares afterExecution
  simp only [sub_eq_zero]
  split_ifs with hn
  · simp [deleteActiveOrder_eq_ok, hmem]
  · rw [Except.ok.injEq, eq_comm]

theorem readPrice_afterExecution :
    readPrice b (afterExecution book ref data n) ref data =
      if data.numShares = n then b.readErased data else data.price := by
  unfold readPrice afterExecution
  split_ifs <;> simp

/-- **Executing an order**: the order was there, its shares go down, and the price is the
order's when some shares are left. -/
theorem executeActiveOrder_eq_ok :
    executeActiveOrder b book ref n = .ok (book', price) ↔
      ∃ data, book.lookup ref = some data ∧ book' = afterExecution book ref data n ∧
        price = if data.numShares = n then b.readErased data else data.price := by
  constructor
  · intro h
    simp only [executeActiveOrder, bind_eq_ok, pure_eq_ok, at_eq_ok, Prod.mk.injEq] at h
    obtain ⟨-, -, data, hdata, book₁, hbook, rfl, rfl⟩ := h
    obtain rfl := (reduceShares_eq_ok hdata).1 hbook
    exact ⟨data, hdata, rfl, readPrice_afterExecution⟩
  · rintro ⟨data, hdata, rfl, rfl⟩
    simp only [executeActiveOrder, bind_eq_ok, pure_eq_ok, at_eq_ok, Prod.mk.injEq,
      Build.assert_eq_ok]
    exact ⟨(), fun _ => Finmap.mem_of_lookup_eq_some hdata, data, hdata, _,
      (reduceShares_eq_ok hdata).2 rfl, rfl, readPrice_afterExecution⟩

theorem executeActiveOrderWithPrice_eq_ok :
    executeActiveOrderWithPrice b book ref n = .ok book' ↔
      ∃ data, book.lookup ref = some data ∧ book' = afterExecution book ref data n := by
  simp only [executeActiveOrderWithPrice, bind_eq_ok, at_eq_ok, Build.assert_eq_ok]
  constructor
  · rintro ⟨-, -, data, hdata, hbook⟩
    exact ⟨data, hdata, (reduceShares_eq_ok hdata).1 hbook⟩
  · rintro ⟨data, hdata, hbook⟩
    exact ⟨(), fun _ => Finmap.mem_of_lookup_eq_some hdata, data, hdata,
      (reduceShares_eq_ok hdata).2 hbook⟩

theorem cancelActiveOrder_eq_ok :
    cancelActiveOrder b book ref n = .ok book' ↔
      ∃ data, book.lookup ref = some data ∧ (b.asserts = true → data.numShares > n) ∧
        book' = book.insert ref { data with numShares := data.numShares - n } := by
  simp only [cancelActiveOrder, bind_eq_ok, pure_eq_ok, at_eq_ok, Build.assert_eq_ok]
  constructor
  · rintro ⟨-, -, data, hdata, -, hshares, rfl⟩
    exact ⟨data, hdata, hshares, rfl⟩
  · rintro ⟨data, hdata, hshares, rfl⟩
    exact ⟨(), fun _ => Finmap.mem_of_lookup_eq_some hdata, data, hdata, (), hshares, rfl⟩

theorem replaceActiveOrder_eq_ok :
    replaceActiveOrder b book locate ref ref' n price = .ok book' ↔
      (b.asserts = true → ref ∈ book ∧ ref' ∉ book.erase ref) ∧
        book' = emplace (book.erase ref) ref' ⟨n, price, locate⟩ := by
  simp only [replaceActiveOrder, bind_eq_ok, Build.assert_eq_ok, deleteActiveOrder_eq_ok,
    addToActiveOrders_eq_ok]
  constructor
  · rintro ⟨-, hmem, _, ⟨-, rfl⟩, hnew, rfl⟩
    exact ⟨fun hb => ⟨hmem hb, hnew hb⟩, rfl⟩
  · rintro ⟨hb, rfl⟩
    exact ⟨(), fun h => (hb h).1, _, ⟨fun h => (hb h).1, rfl⟩, fun h => (hb h).2, rfl⟩

end OrderBook

end NasdaqItch
