import NasdaqItch.LaterHours

/-!
# The close is final

An End Of Market Hours event records the instant after its timestamp. Each of the four message
classes that execute something returns early on a later timestamp, before it reaches the book or
the slots, so once no message stamped up to that instant is left the slots are frozen
(`Frozen`): candidates can only be broken and issues can only be opened, empty. The executions
may then as well be left out of the stream.
-/

namespace NasdaqItch

open UnorderedMap Runs VWAPManager

/-- An End Of Market Hours event. -/
def Message.closesMarket (m : Message) : Bool :=
  match m.body with
  | .systemEvent s => s.eventCode = eventCodeEndOfMarketHours
  | _ => false

/-- An Order Executed, Order Executed With Price, Trade or Cross message. -/
def Message.isExecution (m : Message) : Bool := m.matchNumber.isSome

/-- What the messages of `late` may still change, from `v₁` to `v`. -/
structure Frozen (late : List Message) (v₁ v : VWAPManager) : Prop where
  /-- All fields of all slots stay. -/
  slots : ∀ s slots, v₁.periodicVWAPStatsPerIssue.lookup s = some slots →
    v.periodicVWAPStatsPerIssue.lookup s = some slots
  /-- An issue can be added, by a Stock Trading Action, with empty slots. -/
  opened : ∀ s slots, v.periodicVWAPStatsPerIssue.lookup s = some slots →
    s ∉ v₁.periodicVWAPStatsPerIssue → slots = PeriodicStats.initial ∧
      ∃ m ∈ late, m.stockLocate = s ∧ ∃ a, m.body = .stockTradingAction a
  symbol : ∀ s symbol, v₁.stockLocateToStockSymbol.lookup s = some symbol →
    v.stockLocateToStockSymbol.lookup s = some symbol
  /-- No candidate is added or changed. -/
  candidates : ∀ n c, v.brokenTradeCandidates.lookup n = some c →
    v₁.brokenTradeCandidates.lookup n = some c
  /-- A candidate can be removed, by a Broken Trade message. -/
  removed : ∀ n ∈ v₁.brokenTradeCandidates, n ∉ v.brokenTradeCandidates →
    ∃ m ∈ late, ∃ t, m.body = .brokenTrade t ∧ t.matchNumber = n

theorem closeAfter_eq (close : UInt64) (m : Message) :
    closeAfter close m = if m.closesMarket then m.timestamp + 1 else close := by
  unfold closeAfter Message.closesMarket
  split <;> simp_all

section Late

variable {b : Build} {w w' w₁ w₂ : World} {m : Message} {act : Action} {close : UInt64}
  {late : List Message} {v v₁ v' : VWAPManager} {i : Period} {book book' : OrderBook}

theorem frozen_refl (late : List Message) (v : VWAPManager) : Frozen late v v where
  slots := fun _ _ h => h
  opened := fun _ _ h hnot => absurd (Finmap.mem_of_lookup_eq_some h) hnot
  symbol := fun _ _ h => h
  candidates := fun _ _ h => h
  removed := fun _ h hnot => absurd h hnot

theorem Frozen.keepsUpTo (h : Frozen late v₁ v) (i : Period) : v₁.KeepsUpTo i v := by
  constructor
  case issue =>
    intro s hs
    obtain ⟨slots, hslots⟩ := Finmap.mem_iff.1 hs
    exact Finmap.mem_of_lookup_eq_some (h.slots s slots hslots)
  case symbol => exact h.symbol
  case slots =>
    intro s j _
    rcases lookup_eq_none_or v₁.periodicVWAPStatsPerIssue s with hnone | ⟨slots, hslots⟩
    · rcases lookup_eq_none_or v.periodicVWAPStatsPerIssue s with hnone' | ⟨slots', hslots'⟩
      · rw [hnone, hnone']
      · have hinitial := (h.opened s slots' hslots' (Finmap.lookup_eq_none.1 hnone)).1
        rw [hnone, hslots', hinitial]
        rfl
    · rw [h.slots s slots hslots, hslots]

theorem bookStep_late_execution (hlate : isAfterHours close m.timestamp = true)
    (hm : m.isExecution = true) : bookStep b close book m = .ok (book, .idle) := by
  obtain ⟨header, body⟩ := m
  cases body with
  | crossTrade | orderExecuted | orderExecutedWithPrice | tradeNonCross =>
      simp [bookStep, hlate]
  | _ => exact absurd hm Bool.false_ne_true

/-- **One message after the close.** -/
theorem Frozen.step (h : Frozen late v₁ w.vwapManager) (hm : m ∈ late)
    (hlate : isAfterHours w.marketCloseTimestamp m.timestamp = true)
    (hstep : consume b w m = .ok w') : Frozen late v₁ w'.vwapManager := by
  obtain ⟨act, hbook, hv, -, -⟩ := consume_eq_ok.1 hstep
  have hasks := bookStep_asks hbook
  cases hasks with
  | idle =>
      rw [← Except.ok.inj hv]
      exact h
  | execution price volume number ht =>
      rw [(Message.traded_eq_some ht).1] at hlate
      exact absurd hlate nofun
  | brokenTrade t hbody =>
      rw [← Except.ok.inj hv, handleBrokenTrade_eq]
      refine ⟨h.slots, h.opened, h.symbol, ?_, ?_⟩
      · intro n c hc
        rw [lookup_erase_if] at hc
        split_ifs at hc
        exact h.candidates n c hc
      · intro n hn hnot
        by_cases hold : n ∈ w.vwapManager.brokenTradeCandidates
        · refine ⟨m, hm, t, hbody, ?_⟩
          by_contra hne
          exact hnot (Finmap.mem_erase.2 ⟨Ne.symm hne, hold⟩)
        · exact h.removed n hn hold
  | tradingAction a hbody =>
      have hcandidates : w'.vwapManager.brokenTradeCandidates =
          w.vwapManager.brokenTradeCandidates := by
        rw [← Except.ok.inj hv, VWAPManager.handleStockTradingAction]
        split_ifs <;> rfl
      constructor
      case slots =>
        intro s slots hs
        rw [slots_vwapStep hv, h.slots s slots hs]
        exact ite_self _
      case opened =>
        intro s slots hs hnot
        rw [slots_vwapStep hv, slotsAfter] at hs
        rcases lookup_eq_none_or w.vwapManager.periodicVWAPStatsPerIssue s with hnone | ⟨old, hold⟩
        · rw [hnone, Option.getD_none] at hs
          split_ifs at hs with hopens
          exact ⟨(Option.some.inj hs).symm, m, hm, hopens.1, a, hbody⟩
        · rw [hold, Option.getD_some, ite_self] at hs
          exact h.opened s slots (hold.trans hs) hnot
      case symbol =>
        intro s symbol hs
        rw [symbol_vwapStep hv, h.symbol s symbol hs, symbolAfter_some]
      case candidates =>
        rw [hcandidates]
        exact h.candidates
      case removed =>
        rw [hcandidates]
        exact h.removed

theorem close_step (hm : m.closesMarket = false) (hstep : consume b w m = .ok w') :
    w'.marketCloseTimestamp = w.marketCloseTimestamp := by
  obtain ⟨-, -, -, -, hclose⟩ := consume_eq_ok.1 hstep
  rw [hclose, closeAfter_eq, hm]
  rfl

theorem frozen_run (hrun : Run (Steps (consume b)) w₁ late w)
    (hlate : ∀ m ∈ late, isAfterHours w₁.marketCloseTimestamp m.timestamp = true)
    (hclose : ∀ m ∈ late, m.closesMarket = false) : Frozen late w₁.vwapManager w.vwapManager := by
  have hboth : w.marketCloseTimestamp = w₁.marketCloseTimestamp ∧
      Frozen late w₁.vwapManager w.vwapManager := by
    refine hrun.invariant (I := fun w => w.marketCloseTimestamp = w₁.marketCloseTimestamp ∧
      Frozen late w₁.vwapManager w.vwapManager) ?_ ⟨rfl, frozen_refl late _⟩
    intro s m t hm ⟨hsame, hfrozen⟩ hst
    refine ⟨(close_step (hclose m hm) hst).trans hsame, hfrozen.step hm ?_ hst⟩
    rw [hsame]
    exact hlate m hm
  exact hboth.2

/-! ## Leaving the executions out -/

/-- Two states after the close that are as good as each other for the book. -/
structure SameBook (instant : UInt64) (w w' : World) : Prop where
  close : w.marketCloseTimestamp = instant
  close' : w'.marketCloseTimestamp = instant
  book : w.orderBook = w'.orderBook
  period : w'.currentPeriod.toNat < numberOfPeriodsPerDay

theorem SameBook.skip (h : SameBook close w w') (hlate : isAfterHours close m.timestamp = true)
    (hm : m.isExecution = true) (hclose : m.closesMarket = false)
    (hstep : consume b w m = .ok w₁) : SameBook close w₁ w' := by
  obtain ⟨act, hbook, -, -, -⟩ := consume_eq_ok.1 hstep
  rw [h.close, bookStep_late_execution hlate hm] at hbook
  obtain ⟨hsame, -⟩ := Prod.mk.inj (Except.ok.inj hbook)
  exact ⟨(close_step hclose hstep).trans h.close, h.close', hsame ▸ h.book, h.period⟩

theorem SameBook.step (h : SameBook close w w') (hclose : m.closesMarket = false)
    (hstep : consume b w m = .ok w₁) : ∃ w₁', consume b w' m = .ok w₁' ∧ SameBook close w₁ w₁' := by
  obtain ⟨act, hbook, -, -, -⟩ := consume_eq_ok.1 hstep
  rw [h.close, ← h.close', h.book] at hbook
  have hperiod := processHeaderTimestamp_lt h.period m.timestamp
  obtain ⟨v', hv'⟩ := vwapStep_total hperiod w'.vwapManager act
  have hstep' : consume b w' m = .ok ⟨processHeaderTimestamp w'.currentPeriod m.timestamp,
      closeAfter w'.marketCloseTimestamp m, w₁.orderBook, v'⟩ :=
    consume_eq_ok.2 ⟨act, hbook, hv', rfl, rfl⟩
  exact ⟨_, hstep', (close_step hclose hstep).trans h.close,
    (close_step hclose hstep').trans h.close', rfl, hperiod⟩

theorem split_late {stream : List Message} (instant : UInt64)
    (hsorted : stream.Pairwise (·.timestamp ≤ ·.timestamp)) :
    ∃ early late, stream = early ++ late ∧ (∀ m ∈ early, ¬ instant < m.timestamp) ∧
      ∀ m ∈ late, instant < m.timestamp := by
  induction stream with
  | nil => exact ⟨[], [], rfl, nofun, nofun⟩
  | cons m stream ih =>
      rw [List.pairwise_cons] at hsorted
      by_cases hm : instant < m.timestamp
      · refine ⟨[], m :: stream, rfl, nofun, ?_⟩
        intro m' hm'
        rcases List.mem_cons.1 hm' with rfl | hm'
        · exact hm
        · exact UInt64.lt_of_lt_of_le hm (hsorted.1 m' hm')
      · obtain ⟨early, late, rfl, hearly, hlate⟩ := ih hsorted.2
        refine ⟨m :: early, late, rfl, ?_, hlate⟩
        intro m' hm'
        rcases List.mem_cons.1 hm' with rfl | hm'
        · exact hm
        · exact hearly m' hm'

end Late

/-! ## The close -/

/-- A stream in time order with an End Of Market Hours event that is the last of its kind. -/
structure ClosedDay where
  before : List Message
  event : Message
  after : List Message
  closes : event.closesMarket = true
  last : ∀ m ∈ after, m.closesMarket = false
  sorted : (before ++ event :: after).Pairwise (·.timestamp ≤ ·.timestamp)

namespace ClosedDay

variable (day : ClosedDay)

def stream : List Message := day.before ++ day.event :: day.after

/-- The close instant that the program records. -/
def closeInstant : UInt64 := day.event.timestamp + 1

/-- After the event, the executions that are stamped after the close instant. -/
def isLateExecution (m : Message) : Bool := m.isExecution && day.closeInstant < m.timestamp

/-- The stream without them. -/
def withoutLateExecutions : List Message :=
  day.before ++ day.event :: day.after.filter fun m => !day.isLateExecution m

variable {day} {b : Build} {w w₁ : World} {mid late : List Message}

theorem close_eq (hrun : processAll b World.initial (day.before ++ day.event :: mid) = .ok w)
    (hmid : ∀ m ∈ mid, m.closesMarket = false) : w.marketCloseTimestamp = day.closeInstant := by
  obtain ⟨w₀, -, hrest⟩ := run_append_iff.1 (processAll_eq_ok.1 hrun)
  obtain ⟨w₁, hevent, hmidRun⟩ := run_cons_iff.1 hrest
  refine hmidRun.invariant (I := fun w => w.marketCloseTimestamp = day.closeInstant) ?_ ?_
  · intro s m t hm hs hst
    exact (close_step (hmid m hm) hst).trans hs
  · obtain ⟨-, -, -, -, hclose⟩ := consume_eq_ok.1 hevent
    rw [hclose, closeAfter_eq, day.closes]
    rfl

theorem cut (hrun : processAll b World.initial day.stream = .ok w)
    (hafter : day.after = mid ++ late) :
    ∃ w₁, processAll b World.initial (day.before ++ day.event :: mid) = .ok w₁ ∧
      Run (Steps (consume b)) w₁ late w ∧ w₁.marketCloseTimestamp = day.closeInstant ∧
      ∀ m ∈ late, m.closesMarket = false := by
  have hlast := day.last
  rw [hafter] at hlast
  have hstream : day.stream = (day.before ++ day.event :: mid) ++ late := by
    rw [stream, hafter, List.append_assoc, List.cons_append]
  rw [hstream] at hrun
  obtain ⟨w₁, hmid, hlate⟩ := run_append_iff.1 (processAll_eq_ok.1 hrun)
  have hmid := processAll_eq_ok.2 hmid
  have hclose := close_eq hmid fun m hm => hlast m (List.mem_append_left _ hm)
  exact ⟨w₁, hmid, hlate, hclose, fun m hm => hlast m (List.mem_append_right _ hm)⟩

/-- The messages after the close instant leave the slots frozen. -/
theorem frozen (hrun : processAll b World.initial day.stream = .ok w)
    (hafter : day.after = mid ++ late) (hlate : ∀ m ∈ late, day.closeInstant < m.timestamp) :
    ∃ w₁, processAll b World.initial (day.before ++ day.event :: mid) = .ok w₁ ∧
      Frozen late w₁.vwapManager w.vwapManager := by
  obtain ⟨w₁, hmid, hlateRun, hclose, hlast⟩ := cut hrun hafter
  refine ⟨w₁, hmid, frozen_run hlateRun ?_ hlast⟩
  intro m hm
  rw [hclose]
  exact decide_eq_true (hlate m hm)

/-- The executions that are left out come after the cut at the close instant. -/
theorem withoutLateExecutions_eq (hafter : day.after = mid ++ late)
    (hearly : ∀ m ∈ mid, ¬ day.closeInstant < m.timestamp) :
    day.withoutLateExecutions = (day.before ++ day.event :: mid) ++
      late.filter fun m => !day.isLateExecution m := by
  have hkept : mid.filter (fun m => !day.isLateExecution m) = mid := by
    apply List.filter_eq_self.2
    intro m hm
    rw [isLateExecution, decide_eq_false (hearly m hm), Bool.and_false]
    rfl
  rw [withoutLateExecutions, hafter, List.filter_append, hkept, List.append_assoc,
    List.cons_append]

theorem run_withoutLateExecutions (hlateRun : Run (Steps (consume b)) w₁ late w)
    (hclose : w₁.marketCloseTimestamp = day.closeInstant)
    (hperiod : w₁.currentPeriod.toNat < numberOfPeriodsPerDay)
    (hlate : ∀ m ∈ late, day.closeInstant < m.timestamp)
    (hlast : ∀ m ∈ late, m.closesMarket = false) :
    ∃ w', Run (Steps (consume b)) w₁ (late.filter fun m => !day.isLateExecution m) w' := by
  have hsame : SameBook day.closeInstant w₁ w₁ := ⟨hclose, hclose, rfl, hperiod⟩
  obtain ⟨w', hrun', -⟩ : ∃ w',
      Run (Steps (consume b)) w₁ (late.filter fun m => !day.isLateExecution m) w' ∧
        SameBook day.closeInstant w w' := by
    refine hlateRun.simulate_filter hsame ?_ ?_
    · intro s m t s' hm hdrop hR hst
      rw [Bool.not_eq_false', isLateExecution, Bool.and_eq_true] at hdrop
      exact hR.skip (decide_eq_true (hlate m hm)) hdrop.1 (hlast m hm) hst
    · intro s m t s' hm _ hR hst
      exact hR.step (hlast m hm) hst
  exact ⟨w', hrun'⟩

/-- Without the late executions the lines are the same: both runs leave the slots as they were
when the late part began. -/
theorem sameLines (hrun : processAll b World.initial day.stream = .ok w) :
    ∃ w', processAll b World.initial day.withoutLateExecutions = .ok w' ∧
      ∀ i, SameLines b w.vwapManager w'.vwapManager i := by
  have hsorted := (List.pairwise_append.1 day.sorted).2.1.of_cons
  obtain ⟨early, late, hafter, hearly, hlate⟩ := split_late day.closeInstant hsorted
  obtain ⟨w₁, hmid, hlateRun, hclose, hlast⟩ := cut hrun hafter
  have hconsistent := World.consistent_initial.processAll hmid
  obtain ⟨w', hfiltered⟩ :=
    run_withoutLateExecutions hlateRun hclose hconsistent.period hlate hlast
  have hrun' : processAll b World.initial day.withoutLateExecutions = .ok w' := by
    rw [withoutLateExecutions_eq hafter hearly]
    exact processAll_eq_ok.2 (run_append_iff.2 ⟨w₁, processAll_eq_ok.1 hmid, hfiltered⟩)
  have hafterHours : ∀ m ∈ late, isAfterHours w₁.marketCloseTimestamp m.timestamp = true := by
    intro m hm
    rw [hclose]
    exact decide_eq_true (hlate m hm)
  have hfrozen := frozen_run hlateRun hafterHours hlast
  have hfrozen' := frozen_run hfiltered (fun m hm => hafterHours m (List.mem_of_mem_filter hm))
    fun m hm => hlast m (List.mem_of_mem_filter hm)
  refine ⟨w', hrun', fun i => ?_⟩
  exact (hfrozen.keepsUpTo i).sameLines (hfrozen'.keepsUpTo i) hconsistent.maps
    (World.consistent_initial.processAll hrun).maps
    (World.consistent_initial.processAll hrun').maps

end ClosedDay

/-- **The close is final.** After the event, whatever messages stamped after the close instant
follow leave the slots frozen, and the lines that are written at the end are the same without
the executions among them. -/
theorem close_is_final {b : Build} {day : ClosedDay} {w : World}
    (hrun : processAll b World.initial day.stream = .ok w) :
    (∀ mid late, day.after = mid ++ late → (∀ m ∈ late, day.closeInstant < m.timestamp) →
      ∃ w₁, processAll b World.initial (day.before ++ day.event :: mid) = .ok w₁ ∧
        Frozen late w₁.vwapManager w.vwapManager) ∧
    ∃ w', processAll b World.initial day.withoutLateExecutions = .ok w' ∧
      ∀ i, SameLines b w.vwapManager w'.vwapManager i :=
  ⟨fun _ _ hafter hlate => ClosedDay.frozen hrun hafter hlate, ClosedDay.sameLines hrun⟩

/-- An early close at 13:00. A trade in the same nanosecond still counts; an hour later the order
that was executed is deleted, a trade comes, an issue is opened and the withheld trade is
broken. -/
def earlyClose : ClosedDay where
  before :=
    [startsTrading 1 (clock 9 0), trade 1 (clock 10 0) 100 100 1, trade 1 (clock 10 1) 200 10 2,
      ⟨⟨'A'.toUInt8, 1, clock 10 2⟩, .addOrder ⟨7, 66, 100, [65], 100⟩⟩]
  event := ⟨⟨'S'.toUInt8, 0, clock 13 0⟩, .systemEvent ⟨eventCodeEndOfMarketHours⟩⟩
  after :=
    [trade 1 (clock 13 0) 199 10 3, ⟨⟨'E'.toUInt8, 1, clock 14 0⟩, .orderExecuted ⟨7, 100, 4⟩⟩,
      ⟨⟨'D'.toUInt8, 1, clock 14 1⟩, .orderDelete ⟨7⟩⟩, trade 1 (clock 14 2) 100 10 5,
      startsTrading 2 (clock 14 3), breaksTrade 1 (clock 14 4) 2]
  closes := rfl
  last := by decide
  sorted := by decide

theorem close_is_final_early :
    ∃ w', processAll .release World.initial earlyClose.withoutLateExecutions = .ok w' ∧
      ∀ i, SameLines .release (World.after .release earlyClose.stream).vwapManager
        w'.vwapManager i :=
  (close_is_final (processAll_after earlyClose.stream (by decide))).2

/-- Two of the six late messages are left out. -/
example : earlyClose.withoutLateExecutions.length + 2 = earlyClose.stream.length := by decide

end NasdaqItch
