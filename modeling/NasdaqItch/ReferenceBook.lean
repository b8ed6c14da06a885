import NasdaqItch.Reachable

/-!
# The order book against the exchange's

The exchange's book applies every message. The program skips some executions before they reach
its book: those after the close, and those that are not printable. The skipped executions of each
order are counted on the side (`Skips`), and `Tracks` says how the two books then compare:

* an order of the exchange's book is in the program's, with the skipped shares on top;
* an order that was executed to zero is still in the program's book, with the skipped shares,
  if there were any;
* other orders are in neither book.

So on a stream that is well formed for the exchange no operation of the program's book can fail
(`no_assertion_fires`), and the counts differ by exactly the skipped shares (`book_tracks`).
-/

namespace NasdaqItch

open UnorderedMap Runs VWAPManager

/-! ## The exchange's book -/

/-- The reference book. Every message is applied, every execution subtracts. -/
structure ExchangeBook where
  orders : OrderBook := ∅
  /-- Orders that were removed because they were executed to zero, as they were before. -/
  filled : OrderBook := ∅
  /-- The references that were added so far. -/
  used : Finset UInt64 := ∅

namespace ExchangeBook

variable (x : ExchangeBook) (n : UInt64)

def add (data : ActiveOrderData) : ExchangeBook :=
  { x with
    orders := x.orders.insert n data
    used := insert n x.used }

def remove : ExchangeBook := { x with orders := x.orders.erase n }

def cancel (shares : UInt32) : ExchangeBook :=
  match x.orders.lookup n with
  | some data =>
      { x with orders := x.orders.insert n { data with numShares := data.numShares - shares } }
  | none => x

def execute (shares : UInt32) : ExchangeBook :=
  match x.orders.lookup n with
  | some data =>
      if data.numShares = shares then
        { x with
          orders := x.orders.erase n
          filled := x.filled.insert n data }
      else
        { x with orders := x.orders.insert n { data with numShares := data.numShares - shares } }
  | none => x

/-- What the exchange does with a message. -/
def apply (m : Message) : ExchangeBook :=
  match m.body with
  | .addOrder o => x.add o.orderReferenceNumber ⟨o.shares, o.price, m.stockLocate⟩
  | .addOrderMPID o => x.add o.orderReferenceNumber ⟨o.shares, o.price, m.stockLocate⟩
  | .orderCancel o => x.cancel o.orderReferenceNumber o.cancelledShares
  | .orderDelete o => x.remove o.orderReferenceNumber
  | .orderExecuted o => x.execute o.orderReferenceNumber o.executedShares
  | .orderExecutedWithPrice o => x.execute o.orderReferenceNumber o.executedShares
  | .orderReplace o =>
      (x.remove o.originalOrderReferenceNumber).add o.newOrderReferenceNumber
        ⟨o.shares, o.price, m.stockLocate⟩
  | _ => x

/-- The exchange can send the message: references of new orders are fresh, and the other
operations name live orders with enough shares. -/
def Admissible (m : Message) : Prop :=
  match m.body with
  | .addOrder o => o.orderReferenceNumber ∉ x.used
  | .addOrderMPID o => o.orderReferenceNumber ∉ x.used
  | .orderCancel o =>
      ∃ data ∈ x.orders.lookup o.orderReferenceNumber, o.cancelledShares < data.numShares
  | .orderDelete o => o.orderReferenceNumber ∈ x.orders
  | .orderExecuted o =>
      ∃ data ∈ x.orders.lookup o.orderReferenceNumber, o.executedShares ≤ data.numShares
  | .orderExecutedWithPrice o =>
      ∃ data ∈ x.orders.lookup o.orderReferenceNumber, o.executedShares ≤ data.numShares
  | .orderReplace o =>
      o.originalOrderReferenceNumber ∈ x.orders ∧ o.newOrderReferenceNumber ∉ x.used
  | _ => True

instance decidableAdmissible : (m : Message) → Decidable (x.Admissible m)
  | ⟨_, .addOrder _⟩ => inferInstanceAs (Decidable (_ ∉ _))
  | ⟨_, .addOrderMPID _⟩ => inferInstanceAs (Decidable (_ ∉ _))
  | ⟨_, .orderCancel o⟩ => inferInstanceAs (Decidable
      (∃ data ∈ x.orders.lookup o.orderReferenceNumber, o.cancelledShares < data.numShares))
  | ⟨_, .orderDelete _⟩ => inferInstanceAs (Decidable (_ ∈ _))
  | ⟨_, .orderExecuted o⟩ => inferInstanceAs (Decidable
      (∃ data ∈ x.orders.lookup o.orderReferenceNumber, o.executedShares ≤ data.numShares))
  | ⟨_, .orderExecutedWithPrice o⟩ => inferInstanceAs (Decidable
      (∃ data ∈ x.orders.lookup o.orderReferenceNumber, o.executedShares ≤ data.numShares))
  | ⟨_, .orderReplace _⟩ => inferInstanceAs (Decidable (_ ∧ _))
  | ⟨_, .brokenTrade _⟩ | ⟨_, .crossTrade _⟩ | ⟨_, .stockTradingAction _⟩ | ⟨_, .systemEvent _⟩
  | ⟨_, .tradeNonCross _⟩ => isTrue trivial

end ExchangeBook

/-- A stream that the exchange can send, from some state of its book. -/
def WellFormedFrom (x : ExchangeBook) : List Message → Prop
  | [] => True
  | m :: stream => x.Admissible m ∧ WellFormedFrom (x.apply m) stream

instance decidableWellFormedFrom (x : ExchangeBook) :
    (stream : List Message) → Decidable (WellFormedFrom x stream)
  | [] => isTrue trivial
  | m :: stream =>
      have := decidableWellFormedFrom (x.apply m) stream
      inferInstanceAs (Decidable (_ ∧ _))

/-- A well-formed day. -/
abbrev WellFormed (stream : List Message) : Prop := WellFormedFrom {} stream

/-! ## Skipped executions -/

/-- The order and the shares of an execution. -/
def Message.execution (m : Message) : Option (UInt64 × UInt32) :=
  match m.body with
  | .orderExecuted o => some (o.orderReferenceNumber, o.executedShares)
  | .orderExecutedWithPrice o => some (o.orderReferenceNumber, o.executedShares)
  | _ => none

/-- The program returns before it reaches the book. -/
def Message.isSkipped (marketCloseTimestamp : UInt64) (m : Message) : Bool :=
  isAfterHours marketCloseTimestamp m.timestamp ||
    match m.body with
    | .orderExecutedWithPrice o => o.printable = ignoreOrderExecutedWithPriceMessage
    | _ => false

/-- For each order, the shares of its skipped executions, and whether its latest execution was
skipped. -/
structure Skips where
  shares : UInt64 → Nat := fun _ => 0
  last : UInt64 → Bool := fun _ => false

namespace Skips

variable (g : Skips) (n : UInt64)

def skip (executed : UInt32) : Skips :=
  ⟨Function.update g.shares n (g.shares n + executed.toNat), Function.update g.last n true⟩

def perform : Skips := { g with last := Function.update g.last n false }

/-- The counts after a message. -/
def after (marketCloseTimestamp : UInt64) (m : Message) : Skips :=
  match m.execution with
  | some (n, executed) =>
      if m.isSkipped marketCloseTimestamp then g.skip n executed else g.perform n
  | none => g

/-- An order executed to zero is left over in the program's book. -/
def LeftOver : Prop := 0 < g.shares n ∨ g.last n = true

end Skips

/-- The exchange's book, the skipped executions and the close so far. -/
structure Ledger where
  book : ExchangeBook := {}
  skips : Skips := {}
  marketCloseTimestamp : UInt64 := uint64Max

def Ledger.step (l : Ledger) (m : Message) : Ledger where
  book := l.book.apply m
  skips := l.skips.after l.marketCloseTimestamp m
  marketCloseTimestamp := closeAfter l.marketCloseTimestamp m

/-- The ledger of a stream. -/
def Ledger.after (stream : List Message) : Ledger := stream.foldl Ledger.step {}

/-! ## How the two books compare -/

/-- Reference `n` has an entry with this many shares, and with the price and the issue of
`data`. -/
def OrderBook.Holds (book : OrderBook) (n : UInt64) (shares : Nat) (data : ActiveOrderData) :
    Prop :=
  ∃ entry, book.lookup n = some entry ∧ entry.numShares.toNat = shares ∧
    entry.price = data.price ∧ entry.stockLocate = data.stockLocate

/-- The program's book against the exchange's at one reference, given the skipped executions. -/
structure TracksAt (book : OrderBook) (x : ExchangeBook) (g : Skips) (n : UInt64) : Prop where
  live : ∀ data, x.orders.lookup n = some data →
    book.Holds n (data.numShares.toNat + g.shares n) data
  leftOver : ∀ data, x.filled.lookup n = some data → g.LeftOver n → book.Holds n (g.shares n) data
  filled : n ∈ x.filled → ¬ g.LeftOver n → n ∉ book
  gone : n ∉ x.orders → n ∉ x.filled → n ∉ book
  /-- A filled order is not live. -/
  disjoint : n ∈ x.filled → n ∉ x.orders
  fresh : n ∉ x.used → n ∉ x.orders ∧ n ∉ x.filled ∧ g.shares n = 0

/-- At all references. -/
def Tracks (book : OrderBook) (x : ExchangeBook) (g : Skips) : Prop := ∀ n, TracksAt book x g n

theorem mem_iff_of_lookup_eq {m m' : OrderBook} {n : UInt64} (h : m'.lookup n = m.lookup n) :
    n ∈ m' ↔ n ∈ m := by
  rw [Finmap.mem_iff, Finmap.mem_iff, h]

theorem TracksAt.frame {book book' : OrderBook} {x x' : ExchangeBook} {g g' : Skips} {n : UInt64}
    (h : TracksAt book x g n) (hbook : book'.lookup n = book.lookup n)
    (horders : x'.orders.lookup n = x.orders.lookup n)
    (hfilled : x'.filled.lookup n = x.filled.lookup n) (hused : n ∈ x'.used ↔ n ∈ x.used)
    (hshares : g'.shares n = g.shares n) (hlast : g'.last n = g.last n) :
    TracksAt book' x' g' n := by
  have hleft : g'.LeftOver n ↔ g.LeftOver n := by
    unfold Skips.LeftOver
    rw [hshares, hlast]
  refine ⟨?_, ?_, ?_, ?_, ?_, ?_⟩
  · simpa only [OrderBook.Holds, hbook, horders, hshares] using h.live
  · simpa only [OrderBook.Holds, hbook, hfilled, hshares, hleft] using h.leftOver
  · simpa only [mem_iff_of_lookup_eq hbook, mem_iff_of_lookup_eq hfilled, hleft] using h.filled
  · simpa only [mem_iff_of_lookup_eq hbook, mem_iff_of_lookup_eq horders,
      mem_iff_of_lookup_eq hfilled] using h.gone
  · simpa only [mem_iff_of_lookup_eq horders, mem_iff_of_lookup_eq hfilled] using h.disjoint
  · simpa only [mem_iff_of_lookup_eq horders, mem_iff_of_lookup_eq hfilled, hused, hshares]
      using h.fresh

namespace Tracks

variable {book : OrderBook} {x : ExchangeBook} {g : Skips} {n : UInt64}
  {data entry : ActiveOrderData} {executed : UInt32}

theorem initial : Tracks ∅ {} {} := fun _ =>
  { live := fun _ h => absurd h nofun
    leftOver := fun _ h => absurd h nofun
    filled := fun h => absurd h Finmap.notMem_empty
    gone := fun _ _ => Finmap.notMem_empty
    disjoint := fun h => absurd h Finmap.notMem_empty
    fresh := fun _ => ⟨Finmap.notMem_empty, Finmap.notMem_empty, rfl⟩ }

theorem notMem_of_fresh (h : Tracks book x g) (hn : n ∉ x.used) : n ∉ book :=
  (h n).gone ((h n).fresh hn).1 ((h n).fresh hn).2.1

theorem exists_of_live (h : Tracks book x g) (hlive : x.orders.lookup n = some data) :
    ∃ entry, book.lookup n = some entry ∧
      entry.numShares.toNat = data.numShares.toNat + g.shares n ∧
      entry.price = data.price ∧ entry.stockLocate = data.stockLocate :=
  (h n).live data hlive

theorem add (h : Tracks book x g) (hn : n ∉ x.used) (data : ActiveOrderData) :
    Tracks (book.insert n data) (x.add n data) g := by
  intro k
  by_cases hk : k = n
  · subst hk
    obtain ⟨-, hfilled, hshares⟩ := (h k).fresh hn
    have hlive : (x.add k data).orders.lookup k = some data := Finmap.lookup_insert _
    have hmem : k ∈ (x.add k data).orders := Finmap.mem_of_lookup_eq_some hlive
    refine ⟨fun d hd => ?_, fun d hd => ?_, fun hf => absurd hf hfilled,
      fun hnot => absurd hmem hnot, fun hf => absurd hf hfilled,
      fun hnot => absurd (Finset.mem_insert_self k x.used) hnot⟩
    · obtain rfl := Option.some.inj (hlive.symm.trans hd)
      exact ⟨data, Finmap.lookup_insert _, by rw [hshares, Nat.add_zero], rfl, rfl⟩
    · exact absurd (Finmap.mem_of_lookup_eq_some hd) hfilled
  · exact (h k).frame (Finmap.lookup_insert_of_ne _ hk) (Finmap.lookup_insert_of_ne _ hk) rfl
      (by simp [ExchangeBook.add, hk]) rfl rfl

theorem remove (h : Tracks book x g) (hn : n ∈ x.orders) :
    Tracks (book.erase n) (x.remove n) g := by
  intro k
  by_cases hk : k = n
  · subst hk
    have hfilled : k ∉ x.filled := fun hf => (h k).disjoint hf hn
    have hgone : k ∉ x.orders.erase k := Finmap.notMem_erase_self
    refine ⟨fun d hd => ?_, fun d hd => ?_, fun hf => absurd hf hfilled,
      fun _ _ => Finmap.notMem_erase_self, fun hf => absurd hf hfilled, fun hnot => ?_⟩
    · exact absurd (Finmap.mem_of_lookup_eq_some hd) hgone
    · exact absurd (Finmap.mem_of_lookup_eq_some hd) hfilled
    · exact absurd hn ((h k).fresh hnot).1
  · exact (h k).frame (Finmap.lookup_erase_ne hk) (Finmap.lookup_erase_ne hk) rfl Iff.rfl rfl rfl

theorem setLive {book' : OrderBook} {g' : Skips} (h : Tracks book x g)
    (hlive : x.orders.lookup n = some data) (left : UInt32)
    (hn : book'.Holds n (left.toNat + g'.shares n) data)
    (hother : ∀ k, k ≠ n → book'.lookup k = book.lookup k ∧ g'.shares k = g.shares k ∧
      g'.last k = g.last k) :
    Tracks book' { x with orders := x.orders.insert n { data with numShares := left } } g' := by
  intro k
  by_cases hk : k = n
  · subst hk
    have hmem : k ∈ x.orders := Finmap.mem_of_lookup_eq_some hlive
    have hfilled : k ∉ x.filled := fun hf => (h k).disjoint hf hmem
    refine ⟨fun d hd => ?_, fun d hd => ?_, fun hf => absurd hf hfilled,
      fun hnot => absurd (Finmap.mem_insert.2 (Or.inl rfl)) hnot, fun hf => absurd hf hfilled,
      fun hnot => ?_⟩
    · obtain rfl := Option.some.inj ((Finmap.lookup_insert _).symm.trans hd)
      exact hn
    · exact absurd (Finmap.mem_of_lookup_eq_some hd) hfilled
    · exact absurd hmem ((h k).fresh hnot).1
  · obtain ⟨hbook, hshares, hlast⟩ := hother k hk
    exact (h k).frame hbook (Finmap.lookup_insert_of_ne _ hk) rfl Iff.rfl hshares hlast

theorem setFilled {book' : OrderBook} {g' : Skips} (h : Tracks book x g)
    (hlive : x.orders.lookup n = some data)
    (hleft : g'.LeftOver n → book'.Holds n (g'.shares n) data)
    (hgone : ¬ g'.LeftOver n → n ∉ book')
    (hother : ∀ k, k ≠ n → book'.lookup k = book.lookup k ∧ g'.shares k = g.shares k ∧
      g'.last k = g.last k) :
    Tracks book' { x with
      orders := x.orders.erase n
      filled := x.filled.insert n data } g' := by
  intro k
  by_cases hk : k = n
  · subst hk
    have hmem : k ∈ x.orders := Finmap.mem_of_lookup_eq_some hlive
    have hnot : k ∉ x.orders.erase k := Finmap.notMem_erase_self
    refine ⟨fun d hd => ?_, fun d hd hl => ?_, fun _ hl => hgone hl,
      fun _ hf => absurd (Finmap.mem_insert.2 (Or.inl rfl)) hf, fun _ => hnot,
      fun hused => absurd hmem ((h k).fresh hused).1⟩
    · exact absurd (Finmap.mem_of_lookup_eq_some hd) hnot
    · obtain rfl := Option.some.inj ((Finmap.lookup_insert _).symm.trans hd)
      exact hleft hl
  · obtain ⟨hbook, hshares, hlast⟩ := hother k hk
    exact (h k).frame hbook (Finmap.lookup_erase_ne hk) (Finmap.lookup_insert_of_ne _ hk) Iff.rfl
      hshares hlast

theorem cancel (h : Tracks book x g) (hlive : x.orders.lookup n = some data)
    (hentry : book.lookup n = some entry) {cancelled : UInt32}
    (hle : cancelled < data.numShares) :
    Tracks (book.insert n { entry with numShares := entry.numShares - cancelled })
      (x.cancel n cancelled) g := by
  obtain ⟨entry', hentry', hshares, hprice, hlocate⟩ := h.exists_of_live hlive
  obtain rfl := Option.some.inj (hentry.symm.trans hentry')
  have hle' : cancelled.toNat ≤ data.numShares.toNat := (UInt32.lt_iff_toNat_lt.1 hle).le
  have hle'' : cancelled ≤ entry.numShares := UInt32.le_iff_toNat_le.2 (by omega)
  simp only [ExchangeBook.cancel, hlive]
  refine h.setLive hlive _ ⟨_, Finmap.lookup_insert _, ?_, hprice, hlocate⟩
    fun k hk => ⟨Finmap.lookup_insert_of_ne _ hk, rfl, rfl⟩
  rw [UInt32.toNat_sub_of_le _ _ hle'',
    UInt32.toNat_sub_of_le _ _ (UInt32.le_iff_toNat_le.2 hle')]
  omega

theorem execute (h : Tracks book x g) (hlive : x.orders.lookup n = some data)
    (hentry : book.lookup n = some entry) (hle : executed ≤ data.numShares) :
    Tracks (OrderBook.afterExecution book n entry executed) (x.execute n executed)
      (g.perform n) := by
  obtain ⟨entry', hentry', hshares, hprice, hlocate⟩ := h.exists_of_live hlive
  obtain rfl := Option.some.inj (hentry.symm.trans hentry')
  have hleNat := UInt32.le_iff_toNat_le.1 hle
  have hlePlus : executed ≤ entry.numShares := UInt32.le_iff_toNat_le.2 (by omega)
  have hsub : (entry.numShares - executed).toNat =
      (data.numShares.toNat - executed.toNat) + g.shares n := by
    rw [UInt32.toNat_sub_of_le _ _ hlePlus]
    omega
  have hlast : (g.perform n).last n = false := Function.update_self ..
  have hother : ∀ k, k ≠ n →
      (OrderBook.afterExecution book n entry executed).lookup k = book.lookup k ∧
      (g.perform n).shares k = g.shares k ∧ (g.perform n).last k = g.last k := by
    intro k hk
    refine ⟨?_, rfl, Function.update_of_ne hk ..⟩
    unfold OrderBook.afterExecution
    split_ifs
    · exact Finmap.lookup_erase_ne hk
    · exact Finmap.lookup_insert_of_ne _ hk
  simp only [ExchangeBook.execute, hlive]
  by_cases hfull : data.numShares = executed
  · rw [if_pos hfull]
    subst hfull
    refine h.setFilled hlive (fun hleft => ?_) (fun hnone => ?_) hother
    · -- Skipped shares are left: the program's order is not executed to zero.
      have hpos : 0 < g.shares n := hleft.resolve_right (by simp [hlast])
      have hne : entry.numShares ≠ data.numShares := by
        intro heq
        rw [heq] at hshares
        omega
      rw [OrderBook.afterExecution, if_neg hne]
      exact ⟨_, Finmap.lookup_insert _, by rw [hsub, Nat.sub_self, Nat.zero_add]; rfl, hprice,
        hlocate⟩
    · have hzero : g.shares n = 0 := Nat.eq_zero_of_not_pos fun hpos => hnone (Or.inl hpos)
      have heq : entry.numShares = data.numShares := UInt32.toNat.inj (by omega)
      rw [OrderBook.afterExecution, if_pos heq]
      exact Finmap.notMem_erase_self
  · rw [if_neg hfull]
    have hlt : executed.toNat < data.numShares.toNat :=
      lt_of_le_of_ne hleNat fun heq => hfull (UInt32.toNat.inj heq.symm)
    have hne : entry.numShares ≠ executed := by
      intro heq
      rw [heq] at hshares
      omega
    refine h.setLive hlive _ ?_ hother
    rw [OrderBook.afterExecution, if_neg hne]
    refine ⟨_, Finmap.lookup_insert _, ?_, hprice, hlocate⟩
    rw [UInt32.toNat_sub_of_le _ _ hle]
    exact hsub

/-- An execution that the program skips: its shares stay in the program's book. -/
theorem skip (h : Tracks book x g) (hlive : x.orders.lookup n = some data)
    (hle : executed ≤ data.numShares) : Tracks book (x.execute n executed) (g.skip n executed) := by
  obtain ⟨entry, hentry, hshares, hprice, hlocate⟩ := h.exists_of_live hlive
  have hleNat := UInt32.le_iff_toNat_le.1 hle
  have hskipped : (g.skip n executed).shares n = g.shares n + executed.toNat :=
    Function.update_self ..
  have hother : ∀ k, k ≠ n → book.lookup k = book.lookup k ∧
      (g.skip n executed).shares k = g.shares k ∧ (g.skip n executed).last k = g.last k :=
    fun k hk => ⟨rfl, Function.update_of_ne hk .., Function.update_of_ne hk ..⟩
  simp only [ExchangeBook.execute, hlive]
  by_cases hfull : data.numShares = executed
  · rw [if_pos hfull]
    refine h.setFilled hlive (fun _ => ⟨entry, hentry, ?_, hprice, hlocate⟩)
      (fun hnone => absurd (Or.inr (Function.update_self ..)) hnone) hother
    rw [hskipped, hshares, hfull]
    omega
  · rw [if_neg hfull]
    refine h.setLive hlive _ ⟨entry, hentry, ?_, hprice, hlocate⟩ hother
    rw [hskipped, UInt32.toNat_sub_of_le _ _ hle]
    omega

end Tracks

/-! ## One message -/

section Step

variable {b : Build} {book : OrderBook} {x : ExchangeBook} {g : Skips} {m : Message}

theorem Tracks.addToActiveOrders (h : Tracks book x g) {n : UInt64} (hn : n ∉ x.used)
    (data : ActiveOrderData) :
    OrderBook.addToActiveOrders b book n data.stockLocate data.numShares data.price =
      .ok (book.insert n data) :=
  OrderBook.addToActiveOrders_eq_ok.2
    ⟨fun _ => h.notMem_of_fresh hn, (emplace_of_notMem _ (h.notMem_of_fresh hn)).symm⟩

/-- **One message of a well-formed stream.** The book operation succeeds, whatever the build, and
the books compare as before. -/
theorem bookStep_tracks (h : Tracks book x g) (hm : x.Admissible m) (close : UInt64) :
    ∃ book' act, bookStep b close book m = .ok (book', act) ∧
      Tracks book' (x.apply m) (g.after close m) := by
  obtain ⟨header, body⟩ := m
  cases body with
  | addOrder o =>
      have hadd := h.addToActiveOrders (b := b) hm ⟨o.shares, o.price, header.stockLocate⟩
      exact ⟨_, _, by simp only [bookStep, hadd]; rfl, h.add hm _⟩
  | addOrderMPID o =>
      have hadd := h.addToActiveOrders (b := b) hm ⟨o.shares, o.price, header.stockLocate⟩
      exact ⟨_, _, by simp only [bookStep, hadd]; rfl, h.add hm _⟩
  | orderCancel o =>
      obtain ⟨data, hlive, hle⟩ := hm
      obtain ⟨entry, hentry, hshares, -⟩ := h.exists_of_live hlive
      have hlt : entry.numShares > o.cancelledShares := by
        have := UInt32.lt_iff_toNat_lt.1 hle
        exact UInt32.lt_iff_toNat_lt.2 (by omega)
      have hcancel := OrderBook.cancelActiveOrder_eq_ok (b := b).2
        ⟨entry, hentry, fun _ => hlt, rfl⟩
      exact ⟨_, _, by simp only [bookStep, hcancel]; rfl, h.cancel hlive hentry hle⟩
  | orderDelete o =>
      obtain ⟨data, hlive⟩ := Finmap.mem_iff.1 hm
      obtain ⟨entry, hentry, -⟩ := h.exists_of_live hlive
      have hdelete := OrderBook.deleteActiveOrder_eq_ok (b := b).2
        ⟨fun _ => Finmap.mem_of_lookup_eq_some hentry, rfl⟩
      exact ⟨_, _, by simp only [bookStep, hdelete]; rfl, h.remove hm⟩
  | orderExecuted o =>
      obtain ⟨data, hlive, hle⟩ := hm
      obtain ⟨entry, hentry, -⟩ := h.exists_of_live hlive
      by_cases hlate : isAfterHours close header.timestamp = true
      · refine ⟨book, .idle, by simp only [bookStep, hlate, if_true], ?_⟩
        have hskip := h.skip hlive hle
        simpa [ExchangeBook.apply, Skips.after, Message.execution, Message.isSkipped, hlate]
          using hskip
      · have hexecute := OrderBook.executeActiveOrder_eq_ok (b := b)
          (n := o.executedShares).2 ⟨entry, hentry, rfl, rfl⟩
        refine ⟨_, _, by simp only [bookStep, hlate, hexecute]; rfl, ?_⟩
        have htracks := h.execute hlive hentry hle
        simpa [ExchangeBook.apply, Skips.after, Message.execution, Message.isSkipped, hlate]
          using htracks
  | orderExecutedWithPrice o =>
      obtain ⟨data, hlive, hle⟩ := hm
      obtain ⟨entry, hentry, -⟩ := h.exists_of_live hlive
      by_cases hskipped : isAfterHours close header.timestamp = true ∨
          o.printable = ignoreOrderExecutedWithPriceMessage
      · refine ⟨book, .idle, by simp only [bookStep, if_pos hskipped], ?_⟩
        have hskip := h.skip hlive hle
        simpa [ExchangeBook.apply, Skips.after, Message.execution, Message.isSkipped, hskipped]
          using hskip
      · have hexecute := OrderBook.executeActiveOrderWithPrice_eq_ok (b := b)
          (n := o.executedShares).2 ⟨entry, hentry, rfl⟩
        refine ⟨_, _, by simp only [bookStep, if_neg hskipped, hexecute]; rfl, ?_⟩
        have htracks := h.execute hlive hentry hle
        simpa [ExchangeBook.apply, Skips.after, Message.execution, Message.isSkipped, hskipped]
          using htracks
  | orderReplace o =>
      obtain ⟨hlive, hfresh⟩ := hm
      obtain ⟨data, hlookup⟩ := Finmap.mem_iff.1 hlive
      obtain ⟨entry, hentry, -⟩ := h.exists_of_live hlookup
      have hremoved := h.remove hlive
      have hreplace : OrderBook.replaceActiveOrder b book header.stockLocate
          o.originalOrderReferenceNumber o.newOrderReferenceNumber o.shares o.price = .ok _ :=
        OrderBook.replaceActiveOrder_eq_ok.2
          ⟨fun _ => ⟨Finmap.mem_of_lookup_eq_some hentry, hremoved.notMem_of_fresh hfresh⟩, rfl⟩
      rw [emplace_of_notMem _ (hremoved.notMem_of_fresh hfresh)] at hreplace
      exact ⟨_, _, by simp only [bookStep, hreplace]; rfl, hremoved.add hfresh _⟩
  | _ => exact ⟨_, _, rfl, h⟩

end Step

/-! ## Streams -/

/-- A message the exchange may send, and what it does to the ledger. -/
def Ledger.Sends (l : Ledger) (m : Message) (l' : Ledger) : Prop :=
  l.book.Admissible m ∧ l' = l.step m

theorem run_sends {l : Ledger} {stream : List Message} (h : WellFormedFrom l.book stream) :
    Run Ledger.Sends l stream (stream.foldl Ledger.step l) := by
  induction stream generalizing l with
  | nil => exact .nil l
  | cons m stream ih => exact .cons ⟨h.1, rfl⟩ (ih h.2)

theorem wellFormedFrom_append {x : ExchangeBook} {l l' : List Message}
    (h : WellFormedFrom x (l ++ l')) :
    WellFormedFrom x l ∧ WellFormedFrom (l.foldl ExchangeBook.apply x) l' := by
  induction l generalizing x with
  | nil => exact ⟨trivial, h⟩
  | cons m l ih => exact ⟨⟨h.1, (ih h.2).1⟩, (ih h.2).2⟩

theorem ledger_book (l : Ledger) (stream : List Message) :
    (stream.foldl Ledger.step l).book = stream.foldl ExchangeBook.apply l.book := by
  induction stream generalizing l with
  | nil => rfl
  | cons m stream ih => exact ih (l.step m)

/-- The program's state against the ledger. -/
structure Follows (l : Ledger) (w : World) : Prop where
  tracks : Tracks w.orderBook l.book l.skips
  close : w.marketCloseTimestamp = l.marketCloseTimestamp
  period : w.currentPeriod.toNat < numberOfPeriodsPerDay

variable {b : Build} {w : World} {m : Message} {stream done : List Message}

theorem follows_step {l l' : Ledger} (h : Follows l w) (hsend : l.Sends m l') :
    ∃ w', consume b w m = .ok w' ∧ Follows l' w' := by
  obtain ⟨hm, rfl⟩ := hsend
  obtain ⟨book', act, hbook, htracks⟩ := bookStep_tracks (b := b) h.tracks hm w.marketCloseTimestamp
  have hperiod := processHeaderTimestamp_lt h.period m.timestamp
  obtain ⟨v', hv⟩ := vwapStep_total hperiod w.vwapManager act
  refine ⟨⟨_, closeAfter w.marketCloseTimestamp m, book', v'⟩,
    consume_eq_ok.2 ⟨act, hbook, hv, rfl, rfl⟩, ?_, ?_, hperiod⟩
  · exact h.close ▸ htracks
  · rw [h.close]
    rfl

theorem follows_run (hwf : WellFormed stream) :
    ∃ w, processAll b World.initial stream = .ok w ∧ Follows (Ledger.after stream) w := by
  have hinitial : Follows {} World.initial := ⟨Tracks.initial, rfl, by decide⟩
  have hsimulated : ∃ w, Run (Steps (consume b)) World.initial stream w ∧
      Follows (Ledger.after stream) w :=
    (run_sends (l := {}) hwf).simulate hinitial fun l m l' w _ hR hst => follows_step hR hst
  obtain ⟨w, hrun, hw⟩ := hsimulated
  exact ⟨w, processAll_eq_ok.2 hrun, hw⟩

/-- **The book holds the exchange's orders, plus what was skipped**, after every prefix of a
well-formed stream. -/
theorem book_tracks (hwf : WellFormed stream) (hdone : done <+: stream) :
    ∃ w, processAll b World.initial done = .ok w ∧
      Tracks w.orderBook (Ledger.after done).book (Ledger.after done).skips := by
  obtain ⟨rest, rfl⟩ := hdone
  obtain ⟨w, hrun, hw⟩ := follows_run (b := b) (wellFormedFrom_append hwf).1
  exact ⟨w, hrun, hw.tracks⟩

/-- An order of 100 shares, of which 40 are executed without being printable. -/
def unprintableStream : List Message :=
  [⟨⟨'A'.toUInt8, 1, clock 10 0⟩, .addOrder ⟨7, 66, 100, [65], 2500⟩⟩,
    ⟨⟨'C'.toUInt8, 1, clock 10 1⟩,
      .orderExecutedWithPrice ⟨7, 40, 1, ignoreOrderExecutedWithPriceMessage, 2400⟩⟩]

theorem book_tracks_unprintable :
    ∃ w, processAll .release World.initial unprintableStream = .ok w ∧
      Tracks w.orderBook (Ledger.after unprintableStream).book
        (Ledger.after unprintableStream).skips :=
  book_tracks (by decide) List.prefix_rfl

/-- The exchange's order has 60 shares left, the program's still has 100. -/
theorem book_keeps_unprintable_shares :
    WellFormed unprintableStream ∧
      processAll .release World.initial unprintableStream =
        .ok (World.after .release unprintableStream) ∧
      (Ledger.after unprintableStream).book.orders.lookup 7 = some ⟨60, 2500, 1⟩ ∧
      (World.after .release unprintableStream).orderBook.lookup 7 = some ⟨100, 2500, 1⟩ :=
  ⟨by decide, processAll_after _ (by decide), by decide, by decide⟩

/-- The subtraction of shares that a message performs on the book, if it performs one. -/
def shareSubtraction (marketCloseTimestamp : UInt64) (book : OrderBook) (m : Message) :
    Option (UInt32 × UInt32) :=
  match m.body with
  | .orderCancel o =>
      (book.lookup o.orderReferenceNumber).map fun data => (data.numShares, o.cancelledShares)
  | .orderExecuted o =>
      if m.isSkipped marketCloseTimestamp then none
      else (book.lookup o.orderReferenceNumber).map fun data => (data.numShares, o.executedShares)
  | .orderExecutedWithPrice o =>
      if m.isSkipped marketCloseTimestamp then none
      else (book.lookup o.orderReferenceNumber).map fun data => (data.numShares, o.executedShares)
  | _ => none

theorem Tracks.le_of_live {book : OrderBook} {x : ExchangeBook} {g : Skips} {n : UInt64}
    {data entry : ActiveOrderData} (h : Tracks book x g) (hlive : x.orders.lookup n = some data)
    (hentry : book.lookup n = some entry) : data.numShares ≤ entry.numShares := by
  obtain ⟨entry', hentry', hshares, -⟩ := h.exists_of_live hlive
  obtain rfl := Option.some.inj (hentry.symm.trans hentry')
  exact UInt32.le_iff_toNat_le.2 (by omega)

/-- A subtraction that the exchange's book can bear does not wrap in the program's. -/
theorem Tracks.subtraction_le {book : OrderBook} {x : ExchangeBook} {g : Skips}
    {n : UInt64} {shares a c : UInt32} (h : Tracks book x g)
    (hlive : ∃ data, x.orders.lookup n = some data ∧ shares ≤ data.numShares)
    (hsub : (book.lookup n).map (fun data => (data.numShares, shares)) = some (a, c)) :
    c ≤ a := by
  obtain ⟨data, hlive, hle⟩ := hlive
  obtain ⟨entry, hentry, heq⟩ := Option.map_eq_some_iff.1 hsub
  obtain ⟨rfl, rfl⟩ := Prod.mk.inj heq
  exact UInt32.le_trans hle (h.le_of_live hlive hentry)

theorem shareSubtraction_le {book : OrderBook} {x : ExchangeBook} {g : Skips}
    (h : Tracks book x g) (hm : x.Admissible m) {close : UInt64} {a c : UInt32}
    (hsub : shareSubtraction close book m = some (a, c)) : c ≤ a := by
  obtain ⟨header, body⟩ := m
  cases body with
  | orderCancel o =>
      obtain ⟨data, hlive, hlt⟩ := hm
      exact h.subtraction_le ⟨data, hlive, UInt32.le_of_lt hlt⟩ hsub
  | orderExecuted o | orderExecutedWithPrice o =>
      simp only [shareSubtraction] at hsub
      split_ifs at hsub
      exact h.subtraction_le hm hsub
  | _ => exact absurd hsub nofun

/-- **No assertion of the order book can fire on a well-formed day**, and no lookup throws:
whatever the build, with asserts compiled in or not, the stream runs through. No subtraction of
shares on the way wraps. -/
theorem no_assertion_fires (hwf : WellFormed stream) :
    (∃ w, processAll b World.initial stream = .ok w) ∧
      ∀ done m rest, stream = done ++ m :: rest →
        ∃ w, processAll b World.initial done = .ok w ∧
          ∀ a c, shareSubtraction w.marketCloseTimestamp w.orderBook m = some (a, c) → c ≤ a := by
  obtain ⟨w, hrun, -⟩ := follows_run (b := b) hwf
  refine ⟨⟨w, hrun⟩, fun done m rest hsplit => ?_⟩
  subst hsplit
  obtain ⟨hdone, hrest⟩ := wellFormedFrom_append hwf
  obtain ⟨v, hv, hfollows⟩ := follows_run (b := b) hdone
  refine ⟨v, hv, fun a c hsub => shareSubtraction_le hfollows.tracks ?_ hsub⟩
  have hm := hrest.1
  rwa [← ledger_book {} done] at hm

/-- An order that is partly executed, partly cancelled, replaced, and executed after the close. -/
def orderlyStream : List Message :=
  [⟨⟨'A'.toUInt8, 1, clock 10 0⟩, .addOrder ⟨7, 66, 100, [65], 2500⟩⟩,
    ⟨⟨'E'.toUInt8, 1, clock 10 1⟩, .orderExecuted ⟨7, 30, 1⟩⟩,
    ⟨⟨'X'.toUInt8, 1, clock 10 2⟩, .orderCancel ⟨7, 20⟩⟩,
    ⟨⟨'U'.toUInt8, 1, clock 10 3⟩, .orderReplace ⟨7, 8, 50, 2600⟩⟩,
    ⟨⟨'S'.toUInt8, 0, clock 16 0⟩, .systemEvent ⟨eventCodeEndOfMarketHours⟩⟩,
    ⟨⟨'E'.toUInt8, 1, clock 16 1⟩, .orderExecuted ⟨8, 50, 2⟩⟩]

theorem no_assertion_fires_orderly :
    (∃ w, processAll ⟨true, fun _ => 0⟩ World.initial orderlyStream = .ok w) ∧
      ∀ done m rest, orderlyStream = done ++ m :: rest →
        ∃ w, processAll ⟨true, fun _ => 0⟩ World.initial done = .ok w ∧
          ∀ a c, shareSubtraction w.marketCloseTimestamp w.orderBook m = some (a, c) → c ≤ a :=
  no_assertion_fires (by decide)

/-- The exchange's book is empty, the program keeps the order that was filled after the close. -/
example : (Ledger.after orderlyStream).book.orders.lookup 8 = none ∧
    (World.after .release orderlyStream).orderBook.lookup 8 = some ⟨50, 2600, 1⟩ := by decide

end NasdaqItch
