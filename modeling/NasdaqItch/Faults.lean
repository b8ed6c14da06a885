import NasdaqItch.Reachable
import NasdaqItch.VWAPStep

/-!
# How a run ends early

An assert that fires and an `at` that finds nothing end the program. In a reachable state only the
order book has such faults, so `BookOperation.perform`, an operation with its faults, tells at
which message a stream ends the program and how (`ends_early_iff`).

How the program was built does not matter for more than this. A build with asserts does what one
without does, as long as they hold (`asserts_only_check`), and what the read through an erased
entry finds shows up in slots and candidates only (`erased_read_confined`).
-/

namespace NasdaqItch

open UnorderedMap Runs

/-! ## What an operation does, faults included -/

/-- The fault of an operation that reads an order that is not there: the assert comes first. -/
def missingFault (asserts : Bool) : Fault := if asserts then .assertionFailed else .outOfRange

/-- The book after an operation, or how the operation fails. -/
def BookOperation.perform (asserts : Bool) (book : OrderBook) :
    BookOperation → Except Fault OrderBook
  | .keep => .ok book
  | .add n data =>
      if asserts ∧ n ∈ book then .error .assertionFailed else .ok (emplace book n data)
  | .cancel n shares =>
      match book.lookup n with
      | none => .error (missingFault asserts)
      | some data =>
          if asserts ∧ data.numShares ≤ shares then .error .assertionFailed
          else .ok (book.insert n { data with numShares := data.numShares - shares })
  | .delete n =>
      if asserts ∧ n ∉ book then .error .assertionFailed else .ok (book.erase n)
  | .execute n shares =>
      match book.lookup n with
      | none => .error (missingFault asserts)
      | some data => .ok (book.afterExecution n data shares)
  | .replace n n' data =>
      if asserts ∧ (n ∉ book ∨ n' ∈ book.erase n) then .error .assertionFailed
      else .ok (emplace (book.erase n) n' data)

section Operations

variable {b : Build} {book : OrderBook} {n n' : UInt64} {shares price : UInt32} {locate : UInt16}

theorem addToActiveOrders_eq : OrderBook.addToActiveOrders b book n locate shares price =
    (BookOperation.add n ⟨shares, price, locate⟩).perform b.asserts book := by
  unfold OrderBook.addToActiveOrders BookOperation.perform Build.assert
  by_cases hb : b.asserts <;> by_cases hn : n ∈ book <;> simp [hb, hn]

theorem deleteActiveOrder_eq : OrderBook.deleteActiveOrder b book n =
    (BookOperation.delete n).perform b.asserts book := by
  unfold OrderBook.deleteActiveOrder BookOperation.perform Build.assert
  by_cases hb : b.asserts <;> by_cases hn : n ∈ book <;> simp [hb, hn]

theorem missing_or_at (b : Build) (book : OrderBook) (n : UInt64) :
    (book.lookup n = none ∧ (b.assert (n ∈ book) >>= fun _ => book.at_ n) =
      .error (missingFault b.asserts)) ∨
    ∃ data, book.lookup n = some data ∧
      (b.assert (n ∈ book) >>= fun _ => book.at_ n) = .ok data := by
  unfold OrderBook.at_ Build.assert missingFault
  rcases lookup_eq_none_or book n with hnone | ⟨data, hdata⟩
  · have hn : n ∉ book := Finmap.lookup_eq_none.1 hnone
    refine Or.inl ⟨hnone, ?_⟩
    by_cases hb : b.asserts <;> simp [hb, hn, hnone, error_bind]
  · have hn : n ∈ book := Finmap.mem_of_lookup_eq_some hdata
    exact Or.inr ⟨data, hdata, by simp [hn, hdata]⟩

theorem executeActiveOrderWithPrice_eq : OrderBook.executeActiveOrderWithPrice b book n shares =
    (BookOperation.execute n shares).perform b.asserts book := by
  simp only [OrderBook.executeActiveOrderWithPrice, BookOperation.perform, ← bind_assoc]
  rcases missing_or_at b book n with ⟨hnone, hat⟩ | ⟨data, hdata, hat⟩
  · rw [hat, hnone]
    rfl
  · rw [hat, hdata]
    exact (OrderBook.reduceShares_eq_ok hdata).2 rfl

theorem executeActiveOrder_eq : Prod.fst <$> OrderBook.executeActiveOrder b book n shares =
    (BookOperation.execute n shares).perform b.asserts book := by
  rw [← executeActiveOrderWithPrice_eq]
  unfold OrderBook.executeActiveOrder OrderBook.executeActiveOrderWithPrice
  simp only [map_bind, map_pure, bind_pure]

theorem cancelActiveOrder_eq : OrderBook.cancelActiveOrder b book n shares =
    (BookOperation.cancel n shares).perform b.asserts book := by
  simp only [OrderBook.cancelActiveOrder, BookOperation.perform]
  rw [← bind_assoc]
  rcases missing_or_at b book n with ⟨hnone, hat⟩ | ⟨data, hdata, hat⟩
  · rw [hat, hnone]
    rfl
  · rw [hat, hdata]
    unfold Build.assert
    by_cases hb : b.asserts <;> by_cases hshares : data.numShares ≤ shares <;> simp [hb, hshares]

theorem replaceActiveOrder_eq : OrderBook.replaceActiveOrder b book locate n n' shares price =
    (BookOperation.replace n n' ⟨shares, price, locate⟩).perform b.asserts book := by
  unfold OrderBook.replaceActiveOrder
  simp only [deleteActiveOrder_eq, addToActiveOrders_eq, BookOperation.perform, Build.assert]
  by_cases hb : b.asserts <;> by_cases hn : n ∈ book <;> by_cases hn' : n' ∈ book.erase n <;>
    simp [hb, hn, hn', error_bind]

/-- **A message does to the book what its operation does**, also where it fails. -/
theorem bookStep_perform (b : Build) (close : UInt64) (book : OrderBook) (m : Message) :
    Prod.fst <$> bookStep b close book m = (m.bookOperation close).perform b.asserts book := by
  obtain ⟨header, body⟩ := m
  cases body with
  | addOrder | addOrderMPID =>
      simp only [bookStep, map_bind, map_pure, bind_pure]
      exact addToActiveOrders_eq
  | orderCancel o =>
      simp only [bookStep, map_bind, map_pure, bind_pure]
      exact cancelActiveOrder_eq
  | orderDelete o =>
      simp only [bookStep, map_bind, map_pure, bind_pure]
      exact deleteActiveOrder_eq
  | orderReplace o =>
      simp only [bookStep, map_bind, map_pure, bind_pure]
      exact replaceActiveOrder_eq
  | orderExecuted o =>
      simp only [bookStep, Message.bookOperation]
      split_ifs
      · rfl
      · simp only [map_bind, map_pure]
        exact executeActiveOrder_eq
  | orderExecutedWithPrice o =>
      simp only [bookStep, Message.bookOperation]
      split_ifs
      · rfl
      · simp only [map_bind, map_pure, bind_pure]
        exact executeActiveOrderWithPrice_eq
  | _ => rfl

end Operations

/-! ## One message -/

section Step

variable {b : Build} {w w' : World} {m : Message} {fault : Fault} {book book' : OrderBook}
  {close : UInt64} {price : UInt32} {operation : BookOperation}

/-- With the counter in range the bookkeeping does not fail, so a message fails as its operation
on the book does. -/
theorem consume_eq_error (h : w.Consistent) : consume b w m = .error fault ↔
    (m.bookOperation w.marketCloseTimestamp).perform b.asserts w.orderBook = .error fault := by
  have hperiod := processHeaderTimestamp_lt h.period m.timestamp
  rw [consume_eq, ← bookStep_perform]
  cases bookStep b w.marketCloseTimestamp w.orderBook m with
  | error e =>
      exact ⟨fun h => congrArg Except.error (Except.error.inj h),
        fun h => congrArg Except.error (Except.error.inj h)⟩
  | ok result =>
      obtain ⟨v, hv⟩ := vwapStep_total hperiod w.vwapManager result.2
      simp only [ok_bind, hv]
      exact ⟨nofun, nofun⟩

/-- What the asserts of an operation say, where they are not implied by what comes later. -/
def BookOperation.AssertsHold (book : OrderBook) : BookOperation → Prop
  | .keep => True
  | .add n _ => n ∉ book
  | .cancel n shares => ∀ data, book.lookup n = some data → data.numShares > shares
  | .delete n => n ∈ book
  | .execute _ _ => True
  | .replace n n' _ => n ∈ book ∧ n' ∉ book.erase n

theorem performs_asserts_iff {readErased : ActiveOrderData → UInt32} :
    operation.Performs ⟨true, readErased⟩ book book' price ↔
      operation.Performs ⟨false, readErased⟩ book book' price ∧ operation.AssertsHold book := by
  constructor
  · intro h
    cases h with
    | keep => exact ⟨.keep, trivial⟩
    | add hnew => exact ⟨.add nofun, hnew rfl⟩
    | cancel hdata hshares =>
        refine ⟨.cancel hdata nofun, fun data hdata' => ?_⟩
        exact Option.some.inj (hdata.symm.trans hdata') ▸ hshares rfl
    | delete hmem => exact ⟨.delete nofun, hmem rfl⟩
    | execute hdata => exact ⟨.execute hdata, trivial⟩
    | replace hmem => exact ⟨.replace nofun, hmem rfl⟩
  · rintro ⟨h, hasserts⟩
    cases h with
    | keep => exact .keep
    | add => exact .add fun _ => hasserts
    | cancel hdata => exact .cancel hdata fun _ => hasserts _ hdata
    | delete => exact .delete fun _ => hasserts
    | execute hdata => exact .execute hdata
    | replace => exact .replace fun _ => hasserts

theorem consume_asserts_iff {readErased : ActiveOrderData → UInt32} :
    consume ⟨true, readErased⟩ w m = .ok w' ↔ consume ⟨false, readErased⟩ w m = .ok w' ∧
      (m.bookOperation w.marketCloseTimestamp).AssertsHold w.orderBook := by
  simp only [consume_eq_ok]
  constructor
  · rintro ⟨act, hbook, hrest⟩
    obtain ⟨price, hperforms, rfl⟩ := bookStep_performs hbook
    obtain ⟨hperforms, hasserts⟩ := performs_asserts_iff.1 hperforms
    exact ⟨⟨_, bookStep_of_performs hperforms, hrest⟩, hasserts⟩
  · rintro ⟨⟨act, hbook, hrest⟩, hasserts⟩
    obtain ⟨price, hperforms, rfl⟩ := bookStep_performs hbook
    exact ⟨_, bookStep_of_performs (performs_asserts_iff.2 ⟨hperforms, hasserts⟩), hrest⟩

theorem action_tradingAction (close : UInt64) (m : Message) (price price' : UInt32) {s : UInt16}
    {stock : Bytes} {tradingState : UInt8}
    (h : m.action close price = .tradingAction s stock tradingState) :
    m.action close price' = .tradingAction s stock tradingState := by
  obtain ⟨header, body⟩ := m
  cases body with
  | orderExecuted o =>
      simp only [Message.action] at h
      split_ifs at h
  | _ => exact h

theorem symbolAfter_action (close : UInt64) (m : Message) (price price' : UInt32) (s : UInt16)
    (symbol : Option Bytes) : VWAPManager.symbolAfter (m.action close price) s symbol =
      VWAPManager.symbolAfter (m.action close price') s symbol := by
  obtain ⟨header, body⟩ := m
  cases body with
  | orderExecuted o =>
      simp only [Message.action]
      split_ifs <;> rfl
  | _ => rfl

/-- What is left of a state without the slots' contents and the candidates. -/
structure Outline where
  currentPeriod : UInt8
  marketCloseTimestamp : UInt64
  orderBook : OrderBook
  stockLocateToStockSymbol : UnorderedMap UInt16 Bytes
  /-- The issues that have slots. -/
  issues : Finset UInt16

def World.outline (w : World) : Outline where
  currentPeriod := w.currentPeriod
  marketCloseTimestamp := w.marketCloseTimestamp
  orderBook := w.orderBook
  stockLocateToStockSymbol := w.vwapManager.stockLocateToStockSymbol
  issues := w.vwapManager.periodicVWAPStatsPerIssue.keys

/-- Two actions of one message do the same to the symbols and open slots for the same issues. -/
theorem vwapStep_outline {p : UInt8} {v v' v₁ v₁' : VWAPManager} {price' : UInt32}
    (hv : vwapStep p v (m.action close price) = .ok v₁)
    (hv' : vwapStep p v' (m.action close price') = .ok v₁')
    (hsymbols : v.stockLocateToStockSymbol = v'.stockLocateToStockSymbol)
    (hissues : v.periodicVWAPStatsPerIssue.keys = v'.periodicVWAPStatsPerIssue.keys) :
    v₁.stockLocateToStockSymbol = v₁'.stockLocateToStockSymbol ∧
      v₁.periodicVWAPStatsPerIssue.keys = v₁'.periodicVWAPStatsPerIssue.keys := by
  constructor
  · apply Finmap.ext_lookup
    intro s
    rw [VWAPManager.symbol_vwapStep hv, VWAPManager.symbol_vwapStep hv', hsymbols,
      symbolAfter_action close m price price']
  · ext s
    have hopens : (∃ stock, m.action close price =
        .tradingAction s stock VWAPManager.stockIsTrading) ↔
        ∃ stock, m.action close price' = .tradingAction s stock VWAPManager.stockIsTrading :=
      ⟨fun ⟨stock, h⟩ => ⟨stock, action_tradingAction close m price price' h⟩,
        fun ⟨stock, h⟩ => ⟨stock, action_tradingAction close m price' price h⟩⟩
    have hold : (v.periodicVWAPStatsPerIssue.lookup s).isSome = true ↔
        (v'.periodicVWAPStatsPerIssue.lookup s).isSome = true := by
      rw [Finmap.lookup_isSome, Finmap.lookup_isSome, ← Finmap.mem_keys, hissues, Finmap.mem_keys]
    rw [Finmap.mem_keys, Finmap.mem_keys, ← Finmap.lookup_isSome, ← Finmap.lookup_isSome,
      slots_vwapStep hv, slots_vwapStep hv', isSome_slotsAfter, isSome_slotsAfter, hopens, hold]

/-- **One message** keeps two states alike that differ in prices only. -/
theorem consume_outline {asserts : Bool} {readErased readErased' : ActiveOrderData → UInt32}
    (h : w.Consistent) (h' : w'.Consistent) (hsame : w.outline = w'.outline) :
    World.outline <$> consume ⟨asserts, readErased⟩ w m =
      World.outline <$> consume ⟨asserts, readErased'⟩ w' m := by
  obtain ⟨hperiod, hclose, hbook, hsymbols, hissues⟩ := Outline.mk.inj hsame
  have hfails : ∀ fault, consume ⟨asserts, readErased⟩ w m = .error fault ↔
      consume ⟨asserts, readErased'⟩ w' m = .error fault := fun fault => by
    rw [consume_eq_error h, consume_eq_error h', hclose, hbook]
  cases hw : consume ⟨asserts, readErased⟩ w m with
  | error fault => rw [(hfails fault).1 hw]
  | ok w₁ =>
      cases hw' : consume ⟨asserts, readErased'⟩ w' m with
      | error fault => exact absurd (hw.symm.trans ((hfails fault).2 hw')) nofun
      | ok w₁' =>
          obtain ⟨act, hstep, hv, hperiod₁, hclose₁⟩ := consume_eq_ok.1 hw
          obtain ⟨act', hstep', hv', hperiod₁', hclose₁'⟩ := consume_eq_ok.1 hw'
          have hbook₁ : w₁.orderBook = w₁'.orderBook := by
            have hperform := bookStep_perform ⟨asserts, readErased⟩ w.marketCloseTimestamp
              w.orderBook m
            have hperform' := bookStep_perform ⟨asserts, readErased'⟩ w'.marketCloseTimestamp
              w'.orderBook m
            rw [hstep] at hperform
            rw [hstep', ← hclose, ← hbook, ← hperform] at hperform'
            exact (Except.ok.inj hperform').symm
          obtain ⟨price, -, rfl⟩ := bookStep_performs hstep
          obtain ⟨price', -, rfl⟩ := bookStep_performs hstep'
          have hcounter : w₁.currentPeriod = w₁'.currentPeriod := by
            rw [hperiod₁, hperiod₁', hperiod]
          rw [hcounter] at hv
          rw [← hclose] at hv'
          obtain ⟨hsymbols₁, hissues₁⟩ := vwapStep_outline hv hv' hsymbols hissues
          refine congrArg Except.ok ?_
          rw [World.outline, World.outline, hcounter, hclose₁, hclose₁', hclose, hbook₁,
            hsymbols₁, hissues₁]

end Step

/-! ## Streams -/

/-- **How a run ends early.** The order book fails at some message, with the fault of the
operation that the message asks for, and nothing has failed before. -/
theorem ends_early_iff {b : Build} {stream : List Message} {fault : Fault} :
    processAll b World.initial stream = .error fault ↔
      ∃ past m rest w, stream = past ++ m :: rest ∧ processAll b World.initial past = .ok w ∧
        (m.bookOperation w.marketCloseTimestamp).perform b.asserts w.orderBook =
          .error fault := by
  unfold processAll
  rw [foldlM_eq_error]
  constructor
  · rintro ⟨past, m, rest, w, hstream, hpast, hfail⟩
    have hconsistent : w.Consistent := Reachable.consistent ⟨past, hpast⟩
    exact ⟨past, m, rest, w, hstream, hpast, (consume_eq_error hconsistent).1 hfail⟩
  · rintro ⟨past, m, rest, w, hstream, hpast, hfail⟩
    have hconsistent : w.Consistent := Reachable.consistent ⟨past, hpast⟩
    exact ⟨past, m, rest, w, hstream, hpast, (consume_eq_error hconsistent).2 hfail⟩

/-- **The asserts only check.** A build with asserts gets to a state exactly if one without them
does and at every message the asserts hold. -/
theorem asserts_only_check {readErased : ActiveOrderData → UInt32} {stream : List Message}
    {w : World} : processAll ⟨true, readErased⟩ World.initial stream = .ok w ↔
      processAll ⟨false, readErased⟩ World.initial stream = .ok w ∧
        ∀ past m rest v, stream = past ++ m :: rest →
          processAll ⟨false, readErased⟩ World.initial past = .ok v →
          (m.bookOperation v.marketCloseTimestamp).AssertsHold v.orderBook := by
  have hsteps : Steps (consume ⟨true, readErased⟩) = fun w m w' =>
      Steps (consume ⟨false, readErased⟩) w m w' ∧
        (m.bookOperation w.marketCloseTimestamp).AssertsHold w.orderBook := by
    funext w m w'
    exact propext consume_asserts_iff
  rw [processAll_eq_ok, processAll_eq_ok, hsteps, run_and_iff]
  rfl

/-- **The undefined read is confined.** Whatever the read through an erased entry finds, the same
streams run through, the others end with the same fault, and the state is the same up to what the
slots and the candidates say. -/
theorem erased_read_confined (asserts : Bool) (readErased readErased' : ActiveOrderData → UInt32)
    (stream : List Message) :
    World.outline <$> processAll ⟨asserts, readErased⟩ World.initial stream =
      World.outline <$> processAll ⟨asserts, readErased'⟩ World.initial stream := by
  refine map_foldlM_congr (I := World.Consistent) (fun _ _ _ h hst => h.consume hst)
    (fun _ _ _ h hst => h.consume hst) ?_ World.consistent_initial World.consistent_initial rfl
  intro w w' m h h' hsame
  exact consume_outline h h' hsame

end NasdaqItch
