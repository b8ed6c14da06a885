import NasdaqItch.PeriodClock
import NasdaqItch.ReferenceBook
import NasdaqItch.VWAPStep

/-!
# The tape

What the exchange has reported by some moment of the day, in its own terms: its book, the hour, the
trading actions and, each with its hour, the trades. An execution trades at the price that its
order has in the exchange's book. The program's maps, its counter and its slots do not occur here.

The program keeps less. `Tape.Records` says what: the first symbol of each issue, and for each
issue that trades and each hour what folding `VWAPFormula.file` over the trades gives. After every
well-formed stream this is what the program's state is (`tape_run`).
-/

namespace NasdaqItch

open UnorderedMap Runs VWAPManager

/-! ## What a message reports -/

theorem hoursSinceStart_lt {t : UInt64} (h : InHours t) :
    hoursSinceStart t < numberOfPeriodsPerDay := by
  rw [← period_toNat h]
  exact period_of_inHours h.1 h.2

/-- The period of a timestamp within the hours. -/
def InHours.period {t : UInt64} (h : InHours t) : Period :=
  ⟨hoursSinceStart t, hoursSinceStart_lt h⟩

theorem numberOfPeriodsPerDay_pos : 0 < numberOfPeriodsPerDay := by decide

/-- The hour before anything was said. -/
def firstPeriod : Period := ⟨0, numberOfPeriodsPerDay_pos⟩

/-- The trade that a message reports, if it reports one, and is not late. -/
def Ledger.trade (l : Ledger) (m : Message) : Option Execution :=
  if isAfterHours l.marketCloseTimestamp m.timestamp then none
  else match m.body with
    | .crossTrade t =>
        if t.shares = 0 then none
        else some ⟨m.stockLocate, t.crossPrice, t.shares, m.timestamp, t.matchNumber⟩
    | .orderExecuted o => (l.book.orders.lookup o.orderReferenceNumber).map fun data =>
        ⟨m.stockLocate, data.price, o.executedShares.toUInt64, m.timestamp, o.matchNumber⟩
    | .orderExecutedWithPrice o =>
        if o.printable = ignoreOrderExecutedWithPriceMessage then none
        else some
          ⟨m.stockLocate, o.executionPrice, o.executedShares.toUInt64, m.timestamp, o.matchNumber⟩
    | .tradeNonCross t =>
        some ⟨m.stockLocate, t.price, t.shares.toUInt64, m.timestamp, t.matchNumber⟩
    | _ => none

/-- The trading action that a message announces, with its issue. -/
def Message.announcement (m : Message) : Option (UInt16 × StockTradingAction) :=
  match m.body with
  | .stockTradingAction a => some (m.stockLocate, a)
  | _ => none

/-! ## The tape of a stream -/

structure Tape where
  ledger : Ledger := {}
  /-- The hour of the latest message within the hours. -/
  period : Period := firstPeriod
  announcements : List (UInt16 × StockTradingAction) := []
  /-- The trades of the issues that were trading. -/
  trades : List (Period × Execution) := []

namespace Tape

variable (t : Tape)

/-- The symbol of an issue is that of its first trading action. -/
def symbol (s : UInt16) : Option Bytes := (t.announcements.find? (·.1 = s)).map (·.2.stock)

/-- Some trading action had state `'T'`. -/
def IsTrading (s : UInt16) : Prop :=
  ∃ a ∈ t.announcements, a.1 = s ∧ a.2.tradingState = stockIsTrading

instance (s : UInt16) : Decidable (t.IsTrading s) :=
  inferInstanceAs (Decidable (∃ a ∈ t.announcements, a.1 = s ∧ a.2.tradingState = stockIsTrading))

/-- The trades of issue `s` in period `k`. -/
def slot (s : UInt16) (k : Period) : List Execution :=
  (t.trades.filter fun trade => trade.1 = k ∧ trade.2.stockLocate = s).map (·.2)

def periodAfter (m : Message) : Period :=
  if h : InHours m.timestamp then h.period else t.period

/-- What a message adds to the trades. -/
def reported (m : Message) : List (Period × Execution) :=
  match t.ledger.trade m with
  | some e => if t.IsTrading e.stockLocate then [(t.periodAfter m, e)] else []
  | none => []

/-- The tape after one more message. -/
def step (m : Message) : Tape where
  ledger := t.ledger.step m
  period := t.periodAfter m
  announcements := t.announcements ++ m.announcement.toList
  trades := t.trades ++ t.reported m

/-- The tape of a stream. -/
def after (stream : List Message) : Tape := stream.foldl step {}

/-- What the program has of an issue's trades. -/
def slots (s : UInt16) : Option PeriodicStats :=
  if t.IsTrading s then some fun k => (t.slot s k).foldl VWAPFormula.file {} else none

/-- What the program keeps of a tape. -/
structure Records (w : World) : Prop where
  follows : Follows t.ledger w
  period : w.currentPeriod.toNat = t.period
  symbols : ∀ s, w.vwapManager.stockLocateToStockSymbol.lookup s = t.symbol s
  slots : ∀ s, w.slots s = t.slots s
  trading : ∀ trade ∈ t.trades, t.IsTrading trade.2.stockLocate

end Tape

/-! ## One message -/

section Step

variable {b : Build} {t : Tape} {l : Ledger} {w w' : World} {m : Message} {act : Action}
  {s : UInt16} {book book' : OrderBook}

/-- What a message asks of the bookkeeping is what it reports. -/
inductive Reports (l : Ledger) (m : Message) : Action → Prop
  | trade {e} : l.trade m = some e → m.announcement = none → Reports l m (.execution e)
  | announcement {s a} : l.trade m = none → m.announcement = some (s, a) →
      Reports l m (.tradingAction s a.stock a.tradingState)
  | idle : l.trade m = none → m.announcement = none → Reports l m .idle
  | brokenTrade {n} : l.trade m = none → m.announcement = none → Reports l m (.brokenTrade n)

/-- The price that the program finds is the exchange's, if an erased entry keeps its bytes. -/
theorem bookStep_reports (hread : ∀ data, b.readErased data = data.price)
    (htracks : Tracks book l.book l.skips) (hm : l.book.Admissible m)
    (h : bookStep b l.marketCloseTimestamp book m = .ok (book', act)) : Reports l m act := by
  obtain ⟨price, hperforms, rfl⟩ := bookStep_performs h
  obtain ⟨header, body⟩ := m
  by_cases hlate : isAfterHours l.marketCloseTimestamp header.timestamp = true
  · cases body with
    | stockTradingAction a => exact .announcement (if_pos hlate) rfl
    | brokenTrade n => exact .brokenTrade (if_pos hlate) rfl
    | crossTrade | orderExecuted | orderExecutedWithPrice | tradeNonCross =>
        simp only [Message.action, hlate, true_or, if_true]
        exact .idle (if_pos hlate) rfl
    | _ => exact .idle (if_pos hlate) rfl
  · cases body with
    | stockTradingAction a => exact .announcement (if_neg hlate) rfl
    | brokenTrade n => exact .brokenTrade (if_neg hlate) rfl
    | crossTrade t =>
        by_cases hshares : t.shares = 0
        · simp only [Message.action, hshares, or_true, if_true]
          exact .idle ((if_neg hlate).trans (if_pos hshares)) rfl
        · simp only [Message.action, hlate, hshares]
          exact .trade ((if_neg hlate).trans (if_neg hshares)) rfl
    | orderExecuted o =>
        obtain ⟨data, hlive, -⟩ := hm
        obtain ⟨entry, hentry, -, hprice, -⟩ := htracks.exists_of_live hlive
        simp only [Message.bookOperation, hlate] at hperforms
        cases hperforms with
        | @execute _ _ entry' hentry' =>
            obtain rfl := Option.some.inj (hentry.symm.trans hentry')
            simp only [Message.action, hlate, hread, ite_self, hprice]
            refine .trade ((if_neg hlate).trans ?_) rfl
            show (l.book.orders.lookup o.orderReferenceNumber).map _ = _
            rw [hlive, Option.map_some]
    | orderExecutedWithPrice o =>
        by_cases hprint : o.printable = ignoreOrderExecutedWithPriceMessage
        · simp only [Message.action, hprint, or_true, if_true]
          exact .idle ((if_neg hlate).trans (if_pos hprint)) rfl
        · simp only [Message.action, hlate, hprint]
          exact .trade ((if_neg hlate).trans (if_neg hprint)) rfl
    | tradeNonCross t =>
        simp only [Message.action, hlate]
        exact .trade (if_neg hlate) rfl
    | _ => exact .idle (if_neg hlate) rfl

theorem Reports.symbolAfter_eq (h : Reports t.ledger m act) (s : UInt16) :
    symbolAfter act s (t.symbol s) = (t.step m).symbol s := by
  cases h with
  | @announcement s' a _ hannounced =>
      simp only [symbolAfter, Tape.symbol, Tape.step, hannounced, Option.toList_some,
        List.find?_append]
      by_cases hs : s' = s
      · cases t.announcements.find? (·.1 = s) <;> simp [hs]
      · simp [hs]
  | trade _ hnone | idle _ hnone | brokenTrade _ hnone =>
      simp [symbolAfter, Tape.symbol, Tape.step, hnone]

theorem Tape.isTrading_step : (t.step m).IsTrading s ↔
    t.IsTrading s ∨ ∃ a, m.announcement = some (s, a) ∧ a.tradingState = stockIsTrading := by
  constructor
  · rintro ⟨⟨s', a⟩, ha, rfl, hstate⟩
    rcases List.mem_append.1 ha with ha | ha
    · exact Or.inl ⟨_, ha, rfl, hstate⟩
    · exact Or.inr ⟨a, Option.mem_toList.1 ha, hstate⟩
  · rintro (⟨a, ha, hs, hstate⟩ | ⟨a, ha, hstate⟩)
    · exact ⟨a, List.mem_append_left _ ha, hs, hstate⟩
    · exact ⟨_, List.mem_append_right _ (Option.mem_toList.2 ha), rfl, hstate⟩

theorem Tape.slot_step_none (h : t.ledger.trade m = none) (k : Period) :
    (t.step m).slot s k = t.slot s k := by
  simp [Tape.slot, Tape.step, Tape.reported, h]

theorem Tape.slot_step_some {e : Execution} (h : t.ledger.trade m = some e) (k : Period) :
    (t.step m).slot s k = t.slot s k ++
      if t.IsTrading s ∧ e.stockLocate = s ∧ t.periodAfter m = k then [e] else [] := by
  simp only [Tape.slot, Tape.step, Tape.reported, h, List.filter_append, List.map_append]
  by_cases hs : e.stockLocate = s
  · subst hs
    by_cases htrading : t.IsTrading e.stockLocate <;> by_cases hk : t.periodAfter m = k <;>
      simp [htrading, hk]
  · by_cases htrading : t.IsTrading e.stockLocate <;> simp [htrading, hs]

theorem Tape.slot_eq_nil (h : ∀ trade ∈ t.trades, t.IsTrading trade.2.stockLocate)
    (hs : ¬ t.IsTrading s) (k : Period) : t.slot s k = [] := by
  rw [Tape.slot, List.map_eq_nil_iff, List.filter_eq_nil_iff]
  intro trade htrade hin
  have hlocate : trade.1 = k ∧ trade.2.stockLocate = s := of_decide_eq_true hin
  exact hs (hlocate.2 ▸ h trade htrade)

theorem Reports.slotsAfter_eq (h : Reports t.ledger m act) {p : UInt8}
    (hp : p.toNat = t.periodAfter m)
    (htrading : ∀ trade ∈ t.trades, t.IsTrading trade.2.stockLocate) (s : UInt16) :
    slotsAfter p act s (t.slots s) = (t.step m).slots s := by
  cases h with
  | @trade e htrade hnone =>
      have hsame : (t.step m).IsTrading s ↔ t.IsTrading s := by
        simp [Tape.isTrading_step, hnone]
      simp only [Tape.slots, hsame, Tape.slot_step_some htrade, slotsAfter]
      by_cases hs : t.IsTrading s
      · simp only [hs, if_true, true_and, Option.map_some]
        by_cases hlocate : e.stockLocate = s
        · simp only [hlocate, if_true, true_and, Option.some.injEq]
          funext k
          by_cases hk : t.periodAfter m = k
          · simp [PeriodicStats.file, hp, hk]
          · have hne : ¬ p.toNat = k := fun heq => hk (Fin.ext (hp.symm.trans heq))
            simp [PeriodicStats.file, hne, hk]
        · simp [hlocate]
      · simp [hs]
  | @announcement s' a hnone hannounced =>
      have hopens : (t.step m).IsTrading s ↔
          t.IsTrading s ∨ (s' = s ∧ a.tradingState = stockIsTrading) := by
        rw [Tape.isTrading_step, hannounced]
        simp [and_assoc]
      simp only [Tape.slots, hopens, Tape.slot_step_none hnone, slotsAfter]
      by_cases hs : t.IsTrading s
      · simp [hs]
      · have hempty : ∀ k, t.slot s k = [] := Tape.slot_eq_nil htrading hs
        simp only [hs, if_false, false_or, hempty, Option.getD_none]
        rfl
  | idle htrade hnone | brokenTrade htrade hnone =>
      have hsame : (t.step m).IsTrading s ↔ t.IsTrading s := by
        simp [Tape.isTrading_step, hnone]
      simp only [Tape.slots, hsame, Tape.slot_step_none htrade, slotsAfter]

theorem Tape.trading_step (h : ∀ trade ∈ t.trades, t.IsTrading trade.2.stockLocate) :
    ∀ trade ∈ (t.step m).trades, (t.step m).IsTrading trade.2.stockLocate := by
  intro trade htrade
  rw [Tape.isTrading_step]
  rcases List.mem_append.1 htrade with hold | hnew
  · exact Or.inl (h trade hold)
  · unfold Tape.reported at hnew
    split at hnew
    · split_ifs at hnew with htrading
      · rw [List.mem_singleton.1 hnew]
        exact Or.inl htrading
      · exact absurd hnew List.not_mem_nil
    · exact absurd hnew List.not_mem_nil

/-- **One message of a well-formed stream**: the program keeps of the tape what it kept before. -/
theorem Tape.Records.step (h : t.Records w) (hread : ∀ data, b.readErased data = data.price)
    (hm : t.ledger.book.Admissible m) (h48 : m.timestamp.toNat < 2 ^ 48) :
    ∃ w', consume b w m = .ok w' ∧ (t.step m).Records w' := by
  obtain ⟨w', hstep, hfollows⟩ := follows_step (b := b) h.follows ⟨hm, rfl⟩
  obtain ⟨act, hbook, hv, hperiod, -⟩ := consume_eq_ok.1 hstep
  have hreports : Reports t.ledger m act :=
    bookStep_reports hread h.follows.tracks hm (h.follows.close ▸ hbook)
  have hcounter : w'.currentPeriod.toNat = t.periodAfter m := by
    rw [hperiod, processHeaderTimestamp_eq, Tape.periodAfter]
    by_cases hin : InHours m.timestamp
    · rw [if_pos ((period_lt_iff h48).2 hin), dif_pos hin, period_toNat hin]
      rfl
    · rw [if_neg fun hlt => hin ((period_lt_iff h48).1 hlt), dif_neg hin, h.period]
  refine ⟨w', hstep, hfollows, hcounter, fun s => ?_, fun s => ?_, Tape.trading_step h.trading⟩
  · rw [symbol_vwapStep hv, h.symbols, hreports.symbolAfter_eq]
  · rw [World.slots, slots_vwapStep hv, ← hreports.slotsAfter_eq hcounter h.trading, ← h.slots]
    rfl

end Step

/-! ## Streams -/

theorem Tape.records_initial : ({} : Tape).Records World.initial :=
  ⟨⟨Tracks.initial, rfl, by decide⟩, rfl, fun _ => rfl, fun _ => rfl, nofun⟩

/-- A message that the exchange may send, and what it does to the tape. -/
def Tape.Sends (t : Tape) (m : Message) (t' : Tape) : Prop :=
  t.ledger.book.Admissible m ∧ m.timestamp.toNat < 2 ^ 48 ∧ t' = t.step m

theorem Tape.run_sends {t : Tape} {stream : List Message}
    (hwf : WellFormedFrom t.ledger.book stream) (h48 : ∀ m ∈ stream, m.timestamp.toNat < 2 ^ 48) :
    Run Tape.Sends t stream (stream.foldl Tape.step t) := by
  induction stream generalizing t with
  | nil => exact .nil t
  | cons m stream ih =>
      refine .cons ⟨hwf.1, h48 m List.mem_cons_self, rfl⟩ (ih hwf.2 fun m' hm' => ?_)
      exact h48 m' (List.mem_cons_of_mem _ hm')

/-- **The program records the tape**, after every well-formed stream. -/
theorem tape_run {b : Build} {stream : List Message}
    (hread : ∀ data, b.readErased data = data.price) (hwf : WellFormed stream)
    (h48 : ∀ m ∈ stream, m.timestamp.toNat < 2 ^ 48) :
    ∃ w, processAll b World.initial stream = .ok w ∧ (Tape.after stream).Records w := by
  have hsimulated : ∃ w, Run (Steps (consume b)) World.initial stream w ∧
      (Tape.after stream).Records w := by
    refine (Tape.run_sends (t := {}) hwf h48).simulate Tape.records_initial ?_
    rintro t m t' w - h ⟨hm, hlt, rfl⟩
    exact h.step hread hm hlt
  obtain ⟨w, hrun, hrecords⟩ := hsimulated
  exact ⟨w, processAll_eq_ok.2 hrun, hrecords⟩

end NasdaqItch
