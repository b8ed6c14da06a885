import NasdaqItch.LaterHours

/-!
# Names do not matter

An order reference number is a name that the exchange gives to an order, a match number one that it
gives to an execution. Much else in a message is stored and never looked at: the side of an order,
the symbol it repeats, the attribution. `Message.relevant` keeps what can matter, with the order
references renamed.

The state after a stream and the state after what is relevant of it differ in names only
(`Alike`), so two streams with the same relevant part write the same lines
(`report_ignores_names`). Match numbers are not part of it: whatever a Broken Trade message names,
no line changes.
-/

namespace NasdaqItch

open UnorderedMap Runs VWAPManager

/-! ## What can matter -/

/-- The body with the order references renamed, and zeros for the match numbers and for what no
`processMessage` looks at. -/
def Body.relevant (f : UInt64 → UInt64) : Body → Body
  | .addOrder o => .addOrder
      { o with
        orderReferenceNumber := f o.orderReferenceNumber
        buySellIndicator := 0
        stock := [] }
  | .addOrderMPID o => .addOrderMPID
      { o with
        orderReferenceNumber := f o.orderReferenceNumber
        buySellIndicator := 0
        stock := []
        attribution := [] }
  | .brokenTrade _ => .brokenTrade ⟨0⟩
  | .crossTrade t => .crossTrade { t with stock := [], matchNumber := 0, crossType := 0 }
  | .orderCancel o => .orderCancel { o with orderReferenceNumber := f o.orderReferenceNumber }
  | .orderDelete o => .orderDelete ⟨f o.orderReferenceNumber⟩
  | .orderExecuted o => .orderExecuted
      { o with orderReferenceNumber := f o.orderReferenceNumber, matchNumber := 0 }
  | .orderExecutedWithPrice o => .orderExecutedWithPrice
      { o with orderReferenceNumber := f o.orderReferenceNumber, matchNumber := 0 }
  | .orderReplace o => .orderReplace
      { o with
        originalOrderReferenceNumber := f o.originalOrderReferenceNumber
        newOrderReferenceNumber := f o.newOrderReferenceNumber }
  | .stockTradingAction a => .stockTradingAction { a with reserved := 0, reason := [] }
  | .systemEvent s => .systemEvent s
  | .tradeNonCross t => .tradeNonCross
      { t with orderReferenceNumber := 0, buySellIndicator := 0, stock := [], matchNumber := 0 }

/-- The type of the header has done its work in `getMessage`. -/
def Message.relevant (f : UInt64 → UInt64) (m : Message) : Message :=
  ⟨{ m.header with messageType := 0 }, m.body.relevant f⟩

def BookOperation.rename (f : UInt64 → UInt64) : BookOperation → BookOperation
  | .keep => .keep
  | .add n data => .add (f n) data
  | .cancel n shares => .cancel (f n) shares
  | .delete n => .delete (f n)
  | .execute n shares => .execute (f n) shares
  | .replace n n' data => .replace (f n) (f n') data

/-- The action without match numbers. -/
def Action.anonymous : Action → Action
  | .brokenTrade _ => .brokenTrade 0
  | .execution e => .execution { e with matchNumber := 0 }
  | act => act

section Messages

variable {f : UInt64 → UInt64} {m : Message} {close : UInt64} {price : UInt32}

theorem bookOperation_relevant :
    (m.relevant f).bookOperation close = (m.bookOperation close).rename f := by
  obtain ⟨header, body⟩ := m
  cases body with
  | orderExecuted | orderExecutedWithPrice =>
      simp only [Message.bookOperation, apply_ite (BookOperation.rename f)]
      rfl
  | _ => rfl

theorem action_relevant : (m.relevant f).action close price = (m.action close price).anonymous := by
  obtain ⟨header, body⟩ := m
  cases body with
  | crossTrade | orderExecuted | orderExecutedWithPrice | tradeNonCross =>
      simp only [Message.action, apply_ite Action.anonymous]
      rfl
  | _ => rfl

theorem action_anonymous_anonymous {act : Action} : act.anonymous.anonymous = act.anonymous := by
  cases act <;> rfl

theorem closeAfter_relevant : closeAfter close (m.relevant f) = closeAfter close m := by
  obtain ⟨header, body⟩ := m
  cases body <;> rfl

theorem slotsAfter_anonymous {p : UInt8} {act : Action} {s : UInt16}
    {slots : Option PeriodicStats} :
    slotsAfter p act.anonymous s slots = slotsAfter p act s slots := by
  cases act <;> rfl

theorem symbolAfter_anonymous {act : Action} {s : UInt16} {symbol : Option Bytes} :
    symbolAfter act.anonymous s symbol = symbolAfter act s symbol := by
  cases act <;> rfl

end Messages

/-! ## The book under other names -/

section Book

variable {b : Build} {f : UInt64 → UInt64} {book book' book₁ book₁' : OrderBook}
  {operation : BookOperation} {price n shares : UInt32} {ref : UInt64} {data : ActiveOrderData}

theorem renames_afterExecution (hf : Function.Injective f) (h : Renames f book book')
    (ref : UInt64) (data : ActiveOrderData) (n : UInt32) :
    Renames f (book.afterExecution ref data n) (OrderBook.afterExecution book' (f ref) data n) := by
  unfold OrderBook.afterExecution
  split_ifs
  · exact h.erase hf ref
  · exact h.insert hf ref _

theorem BookOperation.Performs.rename (hf : Function.Injective f) (hbook : Renames f book book')
    (h : operation.Performs b book book₁ price) :
    ∃ book₁', (operation.rename f).Performs b book' book₁' price ∧ Renames f book₁ book₁' := by
  cases h with
  | keep => exact ⟨book', .keep, hbook⟩
  | add hnew => exact ⟨_, .add fun hb => hbook.mem_iff.not.2 (hnew hb), hbook.emplace hf _ _⟩
  | cancel hdata hshares =>
      exact ⟨_, .cancel ((hbook _).trans hdata) hshares, hbook.insert hf _ _⟩
  | delete hmem => exact ⟨_, .delete fun hb => hbook.mem_iff.2 (hmem hb), hbook.erase hf _⟩
  | execute hdata =>
      exact ⟨_, .execute ((hbook _).trans hdata), renames_afterExecution hf hbook _ _ _⟩
  | replace hmem =>
      have herased := hbook.erase hf
      refine ⟨_, .replace fun hb => ⟨hbook.mem_iff.2 (hmem hb).1, ?_⟩, (herased _).emplace hf _ _⟩
      exact (herased _).mem_iff.not.2 (hmem hb).2

theorem BookOperation.Performs.of_rename (hf : Function.Injective f)
    (hbook : Renames f book book') (h : (operation.rename f).Performs b book' book₁' price) :
    ∃ book₁, operation.Performs b book book₁ price ∧ Renames f book₁ book₁' := by
  cases operation with
  | keep =>
      cases h
      exact ⟨book, .keep, hbook⟩
  | add n data =>
      cases h with
      | add hnew => exact ⟨_, .add fun hb => hbook.mem_iff.not.1 (hnew hb), hbook.emplace hf _ _⟩
  | cancel n shares =>
      cases h with
      | cancel hdata hshares =>
          exact ⟨_, .cancel ((hbook _).symm.trans hdata) hshares, hbook.insert hf _ _⟩
  | delete n =>
      cases h with
      | delete hmem => exact ⟨_, .delete fun hb => hbook.mem_iff.1 (hmem hb), hbook.erase hf _⟩
  | execute n shares =>
      cases h with
      | execute hdata =>
          exact ⟨_, .execute ((hbook _).symm.trans hdata), renames_afterExecution hf hbook _ _ _⟩
  | replace n n' data =>
      cases h with
      | replace hmem =>
          have herased := hbook.erase hf
          refine ⟨_, .replace fun hb => ⟨hbook.mem_iff.1 (hmem hb).1, ?_⟩,
            (herased _).emplace hf _ _⟩
          exact (herased _).mem_iff.not.1 (hmem hb).2

end Book

/-! ## The states after the two streams -/

/-- Two states that differ in the names of the orders, and in the candidates. -/
structure World.Alike (f : UInt64 → UInt64) (w w' : World) : Prop where
  period : w'.currentPeriod = w.currentPeriod
  inRange : w.currentPeriod.toNat < numberOfPeriodsPerDay
  close : w'.marketCloseTimestamp = w.marketCloseTimestamp
  book : Renames f w.orderBook w'.orderBook
  slots : w'.vwapManager.periodicVWAPStatsPerIssue = w.vwapManager.periodicVWAPStatsPerIssue
  symbols : w'.vwapManager.stockLocateToStockSymbol = w.vwapManager.stockLocateToStockSymbol

theorem World.alike_initial (f : UInt64 → UInt64) : World.Alike f World.initial World.initial :=
  ⟨rfl, by decide, rfl, renames_empty f, rfl, rfl⟩

section Steps

variable {b : Build} {f : UInt64 → UInt64} {w w' u u' : World} {m : Message} {act : Action}
  {stream : List Message}

/-- Steps with the same action, match numbers apart, whose books stay renamings of each other. -/
theorem World.Alike.of_steps {act' : Action} (h : w.Alike f w')
    (hv : vwapStep u.currentPeriod w.vwapManager act = .ok u.vwapManager)
    (hv' : vwapStep u'.currentPeriod w'.vwapManager act' = .ok u'.vwapManager)
    (hact : act'.anonymous = act.anonymous)
    (hperiod : u.currentPeriod = processHeaderTimestamp w.currentPeriod m.timestamp)
    (hperiod' : u'.currentPeriod = processHeaderTimestamp w'.currentPeriod m.timestamp)
    (hclose : u.marketCloseTimestamp = closeAfter w.marketCloseTimestamp m)
    (hclose' : u'.marketCloseTimestamp = closeAfter w'.marketCloseTimestamp (m.relevant f))
    (hbook : Renames f u.orderBook u'.orderBook) : u.Alike f u' := by
  have hsame : u'.currentPeriod = u.currentPeriod := by rw [hperiod, hperiod', h.period]
  constructor
  case period => exact hsame
  case inRange => exact hperiod ▸ processHeaderTimestamp_lt h.inRange m.timestamp
  case close => rw [hclose, hclose', closeAfter_relevant, h.close]
  case book => exact hbook
  case slots =>
    refine Finmap.ext_lookup fun s => ?_
    rw [slots_vwapStep hv, slots_vwapStep hv', ← slotsAfter_anonymous, hact, slotsAfter_anonymous,
      hsame, h.slots]
  case symbols =>
    refine Finmap.ext_lookup fun s => ?_
    rw [symbol_vwapStep hv, symbol_vwapStep hv', ← symbolAfter_anonymous, hact,
      symbolAfter_anonymous, h.symbols]

theorem World.Alike.step (hf : Function.Injective f) (h : w.Alike f w')
    (hstep : consume b w m = .ok u) :
    ∃ u', consume b w' (m.relevant f) = .ok u' ∧ u.Alike f u' := by
  obtain ⟨act, hbook, hv, hperiod, hclose⟩ := consume_eq_ok.1 hstep
  obtain ⟨price, hperforms, rfl⟩ := bookStep_performs hbook
  obtain ⟨book', hperforms', hrenames⟩ := hperforms.rename hf h.book
  rw [← bookOperation_relevant, ← h.close] at hperforms'
  have hrange : (processHeaderTimestamp w'.currentPeriod m.timestamp).toNat <
      numberOfPeriodsPerDay := processHeaderTimestamp_lt (h.period ▸ h.inRange) m.timestamp
  obtain ⟨v', hv'⟩ := vwapStep_total hrange w'.vwapManager
    ((m.relevant f).action w'.marketCloseTimestamp price)
  refine ⟨⟨_, closeAfter w'.marketCloseTimestamp (m.relevant f), book', v'⟩,
    consume_eq_ok.2 ⟨_, bookStep_of_performs hperforms', hv', rfl, rfl⟩, ?_⟩
  refine h.of_steps hv hv' ?_ hperiod rfl hclose rfl hrenames
  rw [action_relevant, action_anonymous_anonymous, h.close]

theorem World.Alike.of_step (hf : Function.Injective f) (h : w.Alike f w')
    (hstep : consume b w' (m.relevant f) = .ok u') :
    ∃ u, consume b w m = .ok u ∧ u.Alike f u' := by
  obtain ⟨act', hbook, hv', hperiod', hclose'⟩ := consume_eq_ok.1 hstep
  obtain ⟨price, hperforms', rfl⟩ := bookStep_performs hbook
  rw [bookOperation_relevant, h.close] at hperforms'
  obtain ⟨book, hperforms, hrenames⟩ := hperforms'.of_rename hf h.book
  obtain ⟨v, hv⟩ := vwapStep_total (processHeaderTimestamp_lt h.inRange m.timestamp) w.vwapManager
    (m.action w.marketCloseTimestamp price)
  refine ⟨⟨_, closeAfter w.marketCloseTimestamp m, book, v⟩,
    consume_eq_ok.2 ⟨_, bookStep_of_performs hperforms, hv, rfl, rfl⟩, ?_⟩
  refine h.of_steps hv hv' ?_ rfl hperiod' rfl hclose' hrenames
  rw [action_relevant, action_anonymous_anonymous, h.close]

theorem World.Alike.run (hf : Function.Injective f) (h : w.Alike f w')
    (hrun : Run (Steps (consume b)) w stream u) :
    ∃ u', Run (Steps (consume b)) w' (stream.map (Message.relevant f)) u' ∧ u.Alike f u' := by
  have hsimulated : ∃ u', Run (fun w m u => Steps (consume b) w (m.relevant f) u) w' stream u' ∧
      u.Alike f u' := hrun.simulate h fun _ _ _ _ _ h hst => h.step hf hst
  obtain ⟨u', hrun', halike⟩ := hsimulated
  exact ⟨u', run_map_iff.2 hrun', halike⟩

theorem World.Alike.of_run (hf : Function.Injective f) (h : w.Alike f w')
    (hrun : Run (Steps (consume b)) w' (stream.map (Message.relevant f)) u') :
    ∃ u, Run (Steps (consume b)) w stream u ∧ u.Alike f u' :=
  (run_map_iff.1 hrun).simulate (R := fun w' w => World.Alike f w w') h
    fun _ _ _ _ _ h hst => h.of_step hf hst

end Steps

/-- **The lines do not depend on names.** Take two streams that differ in the names of the orders,
one to one, in match numbers and in fields that are stored and never read. Either both run through
or neither does, and if they do, the program writes the same lines to each file. -/
theorem report_ignores_names {b : Build} {f : UInt64 → UInt64} {stream stream' : List Message}
    (hf : Function.Injective f)
    (hsame : stream.map (Message.relevant f) = stream'.map (Message.relevant id)) :
    ((∃ w, processAll b World.initial stream = .ok w) ↔
        ∃ w', processAll b World.initial stream' = .ok w') ∧
      ∀ w w', processAll b World.initial stream = .ok w →
        processAll b World.initial stream' = .ok w' →
          ∀ i, SameLines b w.vwapManager w'.vwapManager i := by
  have hid : Function.Injective (id : UInt64 → UInt64) := Function.injective_id
  have hforward : ∀ w, processAll b World.initial stream = .ok w →
      ∃ v w', w.Alike f v ∧ processAll b World.initial stream' = .ok w' ∧ w'.Alike id v := by
    intro w hw
    obtain ⟨v, hv, halike⟩ := (World.alike_initial f).run hf (processAll_eq_ok.1 hw)
    obtain ⟨w', hw', halike'⟩ := (World.alike_initial id).of_run hid (hsame ▸ hv)
    exact ⟨v, w', halike, processAll_eq_ok.2 hw', halike'⟩
  refine ⟨⟨fun ⟨w, hw⟩ => ?_, fun ⟨w', hw'⟩ => ?_⟩, fun w w' hw hw' i => ?_⟩
  · obtain ⟨-, w', -, hw', -⟩ := hforward w hw
    exact ⟨w', hw'⟩
  · obtain ⟨v, hv, -⟩ := (World.alike_initial id).run hid (processAll_eq_ok.1 hw')
    obtain ⟨w, hw, -⟩ := (World.alike_initial f).of_run hf (hsame ▸ hv)
    exact ⟨w, processAll_eq_ok.2 hw⟩
  · obtain ⟨v, u, halike, hu, halike'⟩ := hforward w hw
    obtain rfl : u = w' := Except.ok.inj (hu.symm.trans hw')
    have hconsistent := (World.consistent_initial.processAll hw).maps
    have hconsistent' := (World.consistent_initial.processAll hw').maps
    have hslots := halike'.slots.symm.trans halike.slots
    have hsymbols := halike'.symbols.symm.trans halike.symbols
    have hkeeps : w.vwapManager.KeepsUpTo i w.vwapManager :=
      ⟨fun _ hs => hs, fun _ _ hs => hs, fun _ _ _ => rfl⟩
    have hkeeps' : w.vwapManager.KeepsUpTo i u.vwapManager :=
      ⟨fun _ hs => hslots ▸ hs, fun _ _ hs => hsymbols ▸ hs, fun _ _ _ => hslots ▸ rfl⟩
    exact hkeeps.sameLines hkeeps' hconsistent hconsistent hconsistent'

/-- An order is replaced and executed at an erroneous price; the execution is declared broken. -/
def namedStream : List Message :=
  [startsTrading 1 (clock 9 0), trade 1 (clock 10 0) 100 100 1,
    ⟨⟨'A'.toUInt8, 1, clock 11 0⟩, .addOrder ⟨7, 66, 50, [65], 400⟩⟩,
    ⟨⟨'U'.toUInt8, 1, clock 11 1⟩, .orderReplace ⟨7, 8, 50, 300⟩⟩,
    ⟨⟨'E'.toUInt8, 1, clock 11 2⟩, .orderExecuted ⟨8, 20, 2⟩⟩, breaksTrade 1 (clock 12 0) 2]

/-- The same under other names; what is broken is the trade before. -/
def renamedStream : List Message :=
  [startsTrading 1 (clock 9 0), trade 1 (clock 10 0) 100 100 31,
    ⟨⟨'A'.toUInt8, 1, clock 11 0⟩, .addOrder ⟨8, 83, 50, [], 400⟩⟩,
    ⟨⟨'U'.toUInt8, 1, clock 11 1⟩, .orderReplace ⟨8, 9, 50, 300⟩⟩,
    ⟨⟨'E'.toUInt8, 1, clock 11 2⟩, .orderExecuted ⟨9, 20, 32⟩⟩, breaksTrade 1 (clock 12 0) 31]

theorem report_ignores_names_renamed :
    SameLines .release (World.after .release namedStream).vwapManager
      (World.after .release renamedStream).vwapManager 2 := by
  have hf : Function.Injective fun n : UInt64 => n + 1 := fun _ _ h => (UInt64.add_left_inj 1).1 h
  have hsame : namedStream.map (Message.relevant fun n => n + 1) =
      renamedStream.map (Message.relevant id) := by decide
  exact (report_ignores_names (b := .release) hf hsame).2 _ _ (processAll_after _ (by decide))
    (processAll_after _ (by decide)) 2

end NasdaqItch
