import NasdaqItch.Reachable
import NasdaqItch.VWAPStep

/-!
# Issues do not interfere

All issues share one order book, one candidate map, one period counter and one close. What the
program keeps for an issue still depends on nothing but the messages of that issue and the system
events, as long as no number it uses is used by another issue and its messages come before 16:00.

The proof relates the states of two runs (`Agree`): same slots and symbol of the issue, same book
entries and candidates under the numbers of the issue (`Owned`). A message of another issue keeps
the relation on its own side, a message of the issue or a system event keeps it when both runs
read it, and `Run.unwinding` does the rest. The counters of the two runs may differ in between;
a message in hours sets its own period, and before 9:00 the counters still are 0.
-/

namespace NasdaqItch

open UnorderedMap Runs VWAPManager

/-! ## What a message reads and writes in the VWAP bookkeeping -/

namespace VWAPManager

variable {p : UInt8} {v v' v₁ v₁' : VWAPManager} {m : Message} {act : Action} {close : UInt64}
  {s : UInt16}

theorem vwapStep_frame (hasks : Asks close m act) (hv : vwapStep p v act = .ok v₁)
    (hm : m.stockLocate ≠ s) :
    v₁.periodicVWAPStatsPerIssue.lookup s = v.periodicVWAPStatsPerIssue.lookup s ∧
      v₁.stockLocateToStockSymbol.lookup s = v.stockLocateToStockSymbol.lookup s := by
  rw [slots_vwapStep hv, symbol_vwapStep hv]
  cases hasks with
  | idle => exact ⟨rfl, rfl⟩
  | brokenTrade t => exact ⟨rfl, rfl⟩
  | tradingAction a => exact ⟨if_neg fun h => hm h.1, if_neg hm⟩
  | execution price volume number ht => exact ⟨if_neg hm, rfl⟩

theorem candidates_congr (hasks : Asks close m act) (hv : vwapStep p v act = .ok v₁)
    (hv' : vwapStep p v' act = .ok v₁')
    (hslots : v.periodicVWAPStatsPerIssue.lookup m.stockLocate =
      v'.periodicVWAPStatsPerIssue.lookup m.stockLocate) {n : UInt64}
    (hn : v.brokenTradeCandidates.lookup n = v'.brokenTradeCandidates.lookup n) :
    v₁.brokenTradeCandidates.lookup n = v₁'.brokenTradeCandidates.lookup n := by
  cases hasks with
  | idle => exact Except.ok.inj hv ▸ Except.ok.inj hv' ▸ hn
  | brokenTrade t =>
      rw [← Except.ok.inj hv, ← Except.ok.inj hv', handleBrokenTrade_eq, handleBrokenTrade_eq,
        lookup_erase_if, lookup_erase_if, hn]
  | tradingAction a =>
      rw [← Except.ok.inj hv, ← Except.ok.inj hv', VWAPManager.handleStockTradingAction,
        VWAPManager.handleStockTradingAction]
      split_ifs <;> exact hn
  | execution price volume number ht =>
      simp only [vwapStep, VWAPManager.handleOrderOrTradeExecuted] at hv hv'
      rw [← hslots] at hv'
      cases hlookup : v.periodicVWAPStatsPerIssue.lookup m.stockLocate with
      | none =>
          rw [hlookup] at hv hv'
          exact Except.ok.inj hv ▸ Except.ok.inj hv' ▸ hn
      | some slots =>
          simp only [hlookup, bind_eq_ok, pure_eq_ok] at hv hv'
          obtain ⟨k, hk, rfl⟩ := hv
          obtain ⟨k', hk', rfl⟩ := hv'
          obtain rfl := Except.ok.inj (hk.symm.trans hk')
          dsimp only
          split_ifs
          · rw [lookup_insert_if, lookup_insert_if, hn]
          · exact hn

end VWAPManager

/-! ## Two runs -/

/-- A system event. -/
def Message.isSystemEvent (m : Message) : Bool :=
  match m.body with
  | .systemEvent _ => true
  | _ => false

/-- A message of issue `s`, or a system event. -/
def Message.concerns (s : UInt16) (m : Message) : Bool := m.stockLocate = s || m.isSystemEvent

/-- The message respects that `orders` and `matches_` are the numbers of issue `s`. -/
structure Owned (s : UInt16) (orders matches_ : UInt64 → Prop) (m : Message) : Prop where
  own : m.stockLocate = s → (∀ n ∈ m.orderReferences, orders n) ∧ ∀ n ∈ m.matchNumbers, matches_ n
  other : m.stockLocate ≠ s →
    (∀ n ∈ m.orderReferences, ¬ orders n) ∧ ∀ n ∈ m.matchNumbers, ¬ matches_ n
  inHours : m.stockLocate = s → m.isSystemEvent = false → m.timestamp < endOfLastPeriod

/-- The two states agree on what belongs to issue `s`. -/
structure Agree (s : UInt16) (orders matches_ : UInt64 → Prop) (w w' : World) : Prop where
  close : w.marketCloseTimestamp = w'.marketCloseTimestamp
  slots : w.slots s = w'.slots s
  symbol : w.vwapManager.stockLocateToStockSymbol.lookup s =
    w'.vwapManager.stockLocateToStockSymbol.lookup s
  book : ∀ n, orders n → w.orderBook.lookup n = w'.orderBook.lookup n
  candidates : ∀ n, matches_ n → w.vwapManager.brokenTradeCandidates.lookup n =
    w'.vwapManager.brokenTradeCandidates.lookup n

/-- Candidates of issue `s` stand under its own numbers. -/
def CandidatesOwned (s : UInt16) (matches_ : UInt64 → Prop) (w : World) : Prop :=
  ∀ n c, w.vwapManager.brokenTradeCandidates.lookup n = some c → c.stockLocate = s → matches_ n

variable {b : Build} {s : UInt16} {orders matches_ : UInt64 → Prop} {w w' w₁ w₁' : World}
  {m : Message} {stream stream' : List Message}

theorem Agree.other_step (h : Agree s orders matches_ w w') (hm : Owned s orders matches_ m)
    (hs : m.concerns s = false) (hstep : consume b w m = .ok w₁) :
    Agree s orders matches_ w₁ w' := by
  obtain ⟨act, hbook, hv, -, hclose⟩ := consume_eq_ok.1 hstep
  simp only [Message.concerns, Bool.or_eq_false_iff, decide_eq_false_iff_not] at hs
  obtain ⟨hother, hsystem⟩ := hs
  obtain ⟨horders, hmatches⟩ := hm.other hother
  have hasks := bookStep_asks hbook
  obtain ⟨hslots, hsymbol⟩ := vwapStep_frame hasks hv hother
  refine ⟨?_, hslots.trans h.slots, hsymbol.trans h.symbol, fun n hn => ?_, fun n hn => ?_⟩
  · rw [← h.close, hclose]
    unfold closeAfter
    split
    · rename_i e heq
      simp [Message.isSystemEvent, heq] at hsystem
    · rfl
  · rw [bookStep_frame hbook fun hmem => horders n hmem hn]
    exact h.book n hn
  · rw [(candidates_vwapStep hasks hv n).1 fun hmem => hmatches n hmem hn]
    exact h.candidates n hn

theorem CandidatesOwned.step (h : CandidatesOwned s matches_ w) (hm : Owned s orders matches_ m)
    (hstep : consume b w m = .ok w₁) : CandidatesOwned s matches_ w₁ := by
  obtain ⟨act, hbook, hv, -, -⟩ := consume_eq_ok.1 hstep
  intro n c hc hs
  rcases (candidates_vwapStep (bookStep_asks hbook) hv n).2 c hc with hold | ⟨hmem, hlocate⟩
  · exact h n c hold hs
  · exact (hm.own (hlocate ▸ hs)).2 n (Message.mem_matchNumbers hmem)

theorem Agree.symm (h : Agree s orders matches_ w w') : Agree s orders matches_ w' w where
  close := h.close.symm
  slots := h.slots.symm
  symbol := h.symbol.symm
  book := fun n hn => (h.book n hn).symm
  candidates := fun n hn => (h.candidates n hn).symm

/-- A message that concerns the issue keeps the agreement when both sides read it, and their
period counters are the same then. -/
theorem Agree.own_step (h : Agree s orders matches_ w w') (hm : Owned s orders matches_ m)
    (hs : m.concerns s = true) (hstep : consume b w m = .ok w₁) (hstep' : consume b w' m = .ok w₁')
    (hperiod : m.isSystemEvent = false → w₁.currentPeriod = w₁'.currentPeriod) :
    Agree s orders matches_ w₁ w₁' := by
  obtain ⟨act, hbook, hv, -, hclose⟩ := consume_eq_ok.1 hstep
  obtain ⟨act', hbook', hv', -, hclose'⟩ := consume_eq_ok.1 hstep'
  have hclose₁ : w₁.marketCloseTimestamp = w₁'.marketCloseTimestamp := by
    rw [hclose, hclose', h.close]
  cases hsystem : m.isSystemEvent with
  | true =>
      -- A system event moves the close and nothing else that counts.
      obtain ⟨header, body⟩ := m
      cases body with
      | systemEvent e =>
          obtain ⟨hsame, rfl⟩ := Prod.mk.inj (Except.ok.inj hbook)
          obtain ⟨hsame', rfl⟩ := Prod.mk.inj (Except.ok.inj hbook')
          refine ⟨hclose₁, ?_, ?_, ?_, ?_⟩
          · rw [World.slots, World.slots, ← Except.ok.inj hv, ← Except.ok.inj hv']
            exact h.slots
          · rw [← Except.ok.inj hv, ← Except.ok.inj hv']
            exact h.symbol
          · rw [← hsame, ← hsame']
            exact h.book
          · rw [← Except.ok.inj hv, ← Except.ok.inj hv']
            exact h.candidates
      | _ => simp [Message.isSystemEvent] at hsystem
  | false =>
      have hlocate : m.stockLocate = s := by
        simpa [Message.concerns, hsystem] using hs
      obtain ⟨horders, hmatches⟩ := hm.own hlocate
      rw [h.close] at hbook
      obtain ⟨rfl, hentries⟩ := bookStep_congr hbook hbook' fun n hn => h.book n (horders n hn)
      rw [← hperiod hsystem] at hv'
      subst hlocate
      refine ⟨hclose₁, ?_, ?_, fun n hn => ?_, fun n hn =>
        candidates_congr (bookStep_asks hbook) hv hv' h.slots (h.candidates n hn)⟩
      · rw [World.slots, World.slots, slots_vwapStep hv, slots_vwapStep hv']
        exact congrArg _ h.slots
      · rw [symbol_vwapStep hv, symbol_vwapStep hv', h.symbol]
      · by_cases hmem : n ∈ m.orderReferences
        · exact hentries n hmem
        · rw [bookStep_frame hbook hmem, bookStep_frame hbook' hmem]
          exact h.book n hn

/-! ## Time -/

/-- Reading a message no older than the last one. The second component is the time of the last
message. -/
def ClockedStep (b : Build) (x : World × UInt64) (m : Message) (y : World × UInt64) : Prop :=
  consume b x.1 m = .ok y.1 ∧ x.2 ≤ m.timestamp ∧ y.2 = m.timestamp

theorem clocked_run (h : Run (Steps (consume b)) w stream w') (t : UInt64)
    (ht : ∀ m ∈ stream, t ≤ m.timestamp)
    (hsorted : stream.Pairwise (·.timestamp ≤ ·.timestamp)) :
    ∃ t', Run (ClockedStep b) (w, t) stream (w', t') := by
  induction h generalizing t with
  | nil w => exact ⟨t, .nil _⟩
  | @cons w v w' m stream hstep hrun ih =>
      rw [List.pairwise_cons] at hsorted
      obtain ⟨t', hrun'⟩ := ih m.timestamp hsorted.1 hsorted.2
      have hone : ClockedStep b (w, t) m (v, m.timestamp) := ⟨hstep, ht m List.mem_cons_self, rfl⟩
      exact ⟨t', .cons hone hrun'⟩

/-- Before 9:00 the counter has its initial value. -/
def EarlyPeriod (x : World × UInt64) : Prop := x.2 < startOfFirstPeriod → x.1.currentPeriod = 0

theorem EarlyPeriod.step {x y : World × UInt64} (h : EarlyPeriod x) (hstep : ClockedStep b x m y) :
    EarlyPeriod y := by
  obtain ⟨hconsume, hle, htime⟩ := hstep
  obtain ⟨act, -, -, hperiod, -⟩ := consume_eq_ok.1 hconsume
  intro hearly
  rw [htime] at hearly
  rw [hperiod, processHeaderTimestamp_eq, if_neg (period_of_lt_start hearly)]
  exact h (UInt64.lt_of_le_of_lt hle hearly)

theorem same_period {x y x' y' : World × UInt64} (hx : EarlyPeriod x) (hx' : EarlyPeriod x')
    (hstep : ClockedStep b x m y) (hstep' : ClockedStep b x' m y')
    (hm : m.timestamp < endOfLastPeriod) : y.1.currentPeriod = y'.1.currentPeriod := by
  by_cases hearly : m.timestamp < startOfFirstPeriod
  · have hy := hx.step hstep
    have hy' := hx'.step hstep'
    rw [hy (hstep.2.2 ▸ hearly), hy' (hstep'.2.2 ▸ hearly)]
  · have hin := period_of_inHours (UInt64.not_lt.1 hearly) hm
    obtain ⟨-, -, -, hperiod, -⟩ := consume_eq_ok.1 hstep.1
    obtain ⟨-, -, -, hperiod', -⟩ := consume_eq_ok.1 hstep'.1
    rw [hperiod, hperiod', processHeaderTimestamp_eq, processHeaderTimestamp_eq, if_pos hin,
      if_pos hin]

/-! ## Noninterference -/

/-- Two runs in time order, over the same messages that concern the issue, end in agreement. -/
theorem agree_run (hrun : Run (Steps (consume b)) World.initial stream w)
    (hrun' : Run (Steps (consume b)) World.initial stream' w')
    (hsorted : stream.Pairwise (·.timestamp ≤ ·.timestamp))
    (hsorted' : stream'.Pairwise (·.timestamp ≤ ·.timestamp))
    (hsame : stream.filter (Message.concerns s) = stream'.filter (Message.concerns s))
    (howned : ∀ m ∈ stream, Owned s orders matches_ m)
    (howned' : ∀ m ∈ stream', Owned s orders matches_ m) :
    Agree s orders matches_ w w' := by
  obtain ⟨t, hclocked⟩ := clocked_run hrun 0 (fun _ _ => UInt64.zero_le) hsorted
  obtain ⟨t', hclocked'⟩ := clocked_run hrun' 0 (fun _ _ => UInt64.zero_le) hsorted'
  have hinitial : Agree s orders matches_ World.initial World.initial :=
    ⟨rfl, rfl, rfl, fun _ _ => rfl, fun _ _ => rfl⟩
  have hearly : EarlyPeriod (World.initial, 0) := fun _ => rfl
  have hleft : ∀ x m y x', Owned s orders matches_ m → m.concerns s = false →
      (Agree s orders matches_ x.1 x'.1 ∧ EarlyPeriod x ∧ EarlyPeriod x') → ClockedStep b x m y →
        Agree s orders matches_ y.1 x'.1 ∧ EarlyPeriod y ∧ EarlyPeriod x' :=
    fun x m y x' hm hs hR hst => ⟨hR.1.other_step hm hs hst.1, hR.2.1.step hst, hR.2.2⟩
  have hright : ∀ x m x' y', Owned s orders matches_ m → m.concerns s = false →
      (Agree s orders matches_ x.1 x'.1 ∧ EarlyPeriod x ∧ EarlyPeriod x') → ClockedStep b x' m y' →
        Agree s orders matches_ x.1 y'.1 ∧ EarlyPeriod x ∧ EarlyPeriod y' :=
    fun x m x' y' hm hs hR hst =>
      ⟨(hR.1.symm.other_step hm hs hst.1).symm, hR.2.1, hR.2.2.step hst⟩
  have hboth : ∀ x m y x' y', Owned s orders matches_ m → m.concerns s = true →
      (Agree s orders matches_ x.1 x'.1 ∧ EarlyPeriod x ∧ EarlyPeriod x') →
        ClockedStep b x m y → ClockedStep b x' m y' →
          Agree s orders matches_ y.1 y'.1 ∧ EarlyPeriod y ∧ EarlyPeriod y' := by
    intro x m y x' y' hm hs hR hst hst'
    refine ⟨hR.1.own_step hm hs hst.1 hst'.1 fun hsystem => ?_, hR.2.1.step hst, hR.2.2.step hst'⟩
    have hlocate : m.stockLocate = s := by simpa [Message.concerns, hsystem] using hs
    exact same_period hR.2.1 hR.2.2 hst hst' (hm.inHours hlocate hsystem)
  exact (hclocked.unwinding hclocked' ⟨hinitial, hearly, hearly⟩ howned howned' hsame hleft hright
    hboth).1

theorem candidatesOwned_run (hrun : Run (Steps (consume b)) World.initial stream w)
    (howned : ∀ m ∈ stream, Owned s orders matches_ m) : CandidatesOwned s matches_ w := by
  have hinitial : CandidatesOwned s matches_ World.initial := by
    intro n c hc
    exact absurd (Finmap.mem_of_lookup_eq_some hc) Finmap.notMem_empty
  exact hrun.invariant (fun _ m _ hm hI hst => CandidatesOwned.step hI (howned m hm) hst) hinitial

/-- No number of issue `s` is used by another issue in the stream. -/
def KeepsApart (s : UInt16) (stream : List Message) : Prop :=
  ∀ m ∈ stream, m.stockLocate = s → ∀ m' ∈ stream, m'.stockLocate ≠ s →
    (∀ n ∈ m.orderReferences, n ∉ m'.orderReferences) ∧
      ∀ n ∈ m.matchNumbers, n ∉ m'.matchNumbers

/-- The numbers of an issue's messages are its own, also in another stream with the same messages
of the issue. -/
theorem KeepsApart.owned (hapart : KeepsApart s stream')
    (hmine : ∀ m, m.stockLocate = s → (m ∈ stream ↔ m ∈ stream'))
    (hinHours : ∀ m ∈ stream, m.stockLocate = s → m.isSystemEvent = false →
      m.timestamp < endOfLastPeriod) :
    ∀ m ∈ stream', Owned s
      (fun n => ∃ m ∈ stream, m.stockLocate = s ∧ n ∈ m.orderReferences)
      (fun n => ∃ m ∈ stream, m.stockLocate = s ∧ n ∈ m.matchNumbers) m := by
  intro m hm
  refine ⟨fun hs => ⟨fun n hn => ?_, fun n hn => ?_⟩, fun hs => ⟨fun n hn hown => ?_,
    fun n hn hown => ?_⟩, fun hs => hinHours m ((hmine m hs).2 hm) hs⟩
  · exact ⟨m, (hmine m hs).2 hm, hs, hn⟩
  · exact ⟨m, (hmine m hs).2 hm, hs, hn⟩
  · obtain ⟨m', hm', hs', hn'⟩ := hown
    exact (hapart m' ((hmine m' hs').1 hm') hs' m hm hs).1 n hn' hn
  · obtain ⟨m', hm', hs', hn'⟩ := hown
    exact (hapart m' ((hmine m' hs').1 hm') hs' m hm hs).2 n hn' hn

/-- **Messages of different issues do not interfere.** Two streams in time order with the same
messages of issue `s` and the same system events leave the same slots, candidates and symbol of
`s`. -/
theorem issues_do_not_interfere (hrun : processAll b World.initial stream = .ok w)
    (hrun' : processAll b World.initial stream' = .ok w')
    (hsorted : stream.Pairwise (·.timestamp ≤ ·.timestamp))
    (hsorted' : stream'.Pairwise (·.timestamp ≤ ·.timestamp))
    (hsame : stream.filter (Message.concerns s) = stream'.filter (Message.concerns s))
    (hinHours : ∀ m ∈ stream, m.stockLocate = s → m.isSystemEvent = false →
      m.timestamp < endOfLastPeriod)
    (hapart : KeepsApart s stream) (hapart' : KeepsApart s stream') :
    w.slots s = w'.slots s ∧
      w.vwapManager.stockLocateToStockSymbol.lookup s =
        w'.vwapManager.stockLocateToStockSymbol.lookup s ∧
      ∀ n c, c.stockLocate = s →
        (w.vwapManager.brokenTradeCandidates.lookup n = some c ↔
          w'.vwapManager.brokenTradeCandidates.lookup n = some c) := by
  rw [processAll_eq_ok] at hrun hrun'
  have hmine : ∀ m, m.stockLocate = s → (m ∈ stream ↔ m ∈ stream') := by
    intro m hm
    have hconcerns : m.concerns s = true := by simp [Message.concerns, hm]
    have hiff : m ∈ stream.filter (Message.concerns s) ↔
        m ∈ stream'.filter (Message.concerns s) := by rw [hsame]
    simpa only [List.mem_filter, hconcerns, and_true] using hiff
  have howned := hapart.owned (fun _ _ => Iff.rfl) hinHours
  have howned' := hapart'.owned hmine hinHours
  have hagree := agree_run hrun hrun' hsorted hsorted' hsame howned howned'
  have hcandidates := candidatesOwned_run hrun howned
  have hcandidates' := candidatesOwned_run hrun' howned'
  refine ⟨hagree.slots, hagree.symbol, fun n c hc => ⟨fun h => ?_, fun h => ?_⟩⟩
  · rwa [← hagree.candidates n (hcandidates n c h hc)]
  · rwa [hagree.candidates n (hcandidates' n c h hc)]

/-- Two trades of issue 1, the second one withheld. -/
def quietStream : List Message :=
  [startsTrading 1 (clock 9 0), trade 1 (clock 10 0) 100 100 1, trade 1 (clock 12 0) 200 10 2]

/-- The same with trades of issue 2 before, between and after them. -/
def busyStream : List Message :=
  [startsTrading 2 (clock 8 0), startsTrading 1 (clock 9 0), trade 1 (clock 10 0) 100 100 1,
    trade 2 (clock 11 0) 50 70 3, trade 1 (clock 12 0) 200 10 2, trade 2 (clock 13 0) 90 20 4]

theorem issues_do_not_interfere_busy :
    (World.after .release quietStream).slots 1 = (World.after .release busyStream).slots 1 ∧
      (World.after .release quietStream).vwapManager.stockLocateToStockSymbol.lookup 1 =
        (World.after .release busyStream).vwapManager.stockLocateToStockSymbol.lookup 1 ∧
      ∀ n c, c.stockLocate = 1 →
        ((World.after .release quietStream).vwapManager.brokenTradeCandidates.lookup n = some c ↔
          (World.after .release busyStream).vwapManager.brokenTradeCandidates.lookup n =
            some c) := by
  have hapart : KeepsApart 1 quietStream := by
    simp [KeepsApart, quietStream, startsTrading, trade]
  have hapart' : KeepsApart 1 busyStream := by
    simp [KeepsApart, busyStream, startsTrading, trade, Message.orderReferences,
      Message.matchNumbers, Message.matchNumber]
  exact issues_do_not_interfere (b := .release) (processAll_after _ (by decide))
    (processAll_after _ (by decide)) (by decide) (by decide) (by decide) (by decide) hapart hapart'

end NasdaqItch
