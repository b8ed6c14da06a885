import Mathlib.Algebra.BigOperators.Fin
import NasdaqItch.Reachable
import NasdaqItch.VWAPStep

/-!
# Executed volume is conserved before the merge

Every share that is executed for a known issue before the close is either in one of the slots of
its issue, or in a candidate, or was taken out by a broken-trade message. `held` adds up the
first two. What a message brings in, and what it takes out, is read off the message
(`Message.executedShares`) and off the candidate map (`erasedBy`).

* `held_step`: one message changes `held` by what it brings in and takes out.
* `held_run`: so do the messages of a run.
* `volume_conserved`: from the initial state, after every prefix of a stream.

Match numbers must be distinct: a second execution with the match number of a candidate would
replace it. All sums are sums of machine words, modulo `2 ^ 64`.
-/

namespace NasdaqItch

open UnorderedMap Runs VWAPManager

/-! ## What the program holds -/

namespace VWAPManager

/-- The volume in the seven slots of an issue. -/
def slotVolume (v : VWAPManager) (s : UInt16) : UInt64 :=
  match v.periodicVWAPStatsPerIssue.lookup s with
  | some slots => ∑ k, (slots k).volume
  | none => 0

/-- The volume of the candidates of an issue. -/
def candidateVolume (v : VWAPManager) (s : UInt16) : UInt64 :=
  sumBy (fun _ c => if c.stockLocate = s then c.executionVolume else 0) v.brokenTradeCandidates

def held (v : VWAPManager) (s : UInt16) : UInt64 := v.slotVolume s + v.candidateVolume s

end VWAPManager

/-- The volume of the candidate of issue `s` that a message erases, if it erases one. -/
def erasedBy (s : UInt16) (w : World) (m : Message) : List UInt64 :=
  match m.body with
  | .brokenTrade t =>
      match w.vwapManager.brokenTradeCandidates.lookup t.matchNumber with
      | some c => if c.stockLocate = s then [c.executionVolume] else []
      | none => []
  | _ => []

/-- The volume of all candidates of issue `s` that a stream erases. -/
def erasedVolume (b : Build) (s : UInt16) (w : World) (stream : List Message) : UInt64 :=
  (collect (consume b) (erasedBy s) w stream).sum

/-! ## What the stream says was traded -/

namespace Message

/-- A stock trading action of issue `s` with state `'T'`. -/
def opens (s : UInt16) (m : Message) : Bool :=
  match m.body with
  | .stockTradingAction a => m.stockLocate = s ∧ a.tradingState = stockIsTrading
  | _ => false

theorem opens_eq_false {m : Message} (h : ∀ a, m.body ≠ .stockTradingAction a) (s : UInt16) :
    m.opens s = false := by
  unfold opens
  split
  · exact absurd ‹_› (h _)
  · rfl

end Message

/-- The shares of a message that count as traded in issue `s`: its first trading action with state
`'T'` came before (`opened`), and the message is not after hours. -/
def Message.sharesOf (s : UInt16) (opened : Bool) (marketCloseTimestamp : UInt64) (m : Message) :
    UInt64 :=
  if opened ∧ m.stockLocate = s ∧ ¬ isAfterHours marketCloseTimestamp m.timestamp
  then m.executedShares else 0

/-- The sum of these over a stream. Trading actions and close events take effect as they come. -/
def tradedShares (s : UInt16) :
    (opened : Bool) → (marketCloseTimestamp : UInt64) → List Message → UInt64
  | _, _, [] => 0
  | opened, close, m :: stream =>
      m.sharesOf s opened close + tradedShares s (opened || m.opens s) (closeAfter close m) stream

theorem Message.sharesOf_of_traded {close volume n : UInt64} {m : Message}
    (h : m.traded close = some (volume, n)) (s : UInt16) (opened : Bool) :
    m.sharesOf s opened close = if opened ∧ m.stockLocate = s then volume else 0 := by
  obtain ⟨hlate, hshares, -⟩ := Message.traded_eq_some h
  simp [Message.sharesOf, hlate, hshares]

theorem Message.sharesOf_of_not_traded {close : UInt64} {m : Message} (h : m.traded close = none)
    (s : UInt16) (opened : Bool) : m.sharesOf s opened close = 0 := by
  by_cases hlate : isAfterHours close m.timestamp = true
  · simp [Message.sharesOf, hlate]
  · have hshares : m.executedShares = 0 :=
      Message.executedShares_of_not_traded (Bool.eq_false_iff.2 hlate) h
    simp [Message.sharesOf, hshares]

theorem erasedBy_eq_nil {m : Message} (h : ∀ t, m.body ≠ .brokenTrade t) (s : UInt16) (w : World) :
    erasedBy s w m = [] := by
  unfold erasedBy
  split
  · exact absurd ‹_› (h _)
  · rfl

/-! ## The handlers -/

namespace VWAPManager

variable {v v' : VWAPManager} {p : UInt8} {e : Execution} {s : UInt16}

theorem held_handleBrokenTrade (v : VWAPManager) (s : UInt16) (w : World) (m : Message)
    (t : BrokenTradeOrOrderExecution) (hw : w.vwapManager = v) (hm : m.body = .brokenTrade t) :
    (v.handleBrokenTrade t.matchNumber).held s + (erasedBy s w m).sum = v.held s := by
  subst hw
  rw [handleBrokenTrade_eq]
  unfold held slotVolume candidateVolume erasedBy
  rw [hm]
  rcases lookup_eq_none_or w.vwapManager.brokenTradeCandidates t.matchNumber with hnone | ⟨c, hc⟩
  · rw [erase_of_notMem (Finmap.lookup_eq_none.1 hnone)]
    simp [hnone]
  · rw [sumBy_erase _ hc]
    simp only [hc]
    split_ifs
    · simp [add_comm, add_assoc]
    · simp

theorem held_handleStockTradingAction (v : VWAPManager) (s s' : UInt16) (stock : Bytes)
    (state : UInt8) : (v.handleStockTradingAction s' stock state).held s = v.held s := by
  unfold VWAPManager.handleStockTradingAction
  by_cases hstate : state = stockIsTrading
  · rw [if_neg (not_not.2 hstate)]
    have hslots : ∀ slots, (emplace v.periodicVWAPStatsPerIssue s' PeriodicStats.initial).lookup s =
        some slots → v.periodicVWAPStatsPerIssue.lookup s = none →
          slots = PeriodicStats.initial := by
      intro slots hslots hnone
      rw [lookup_emplace_if] at hslots
      split_ifs at hslots with hs
      · rw [← hs, hnone] at hslots
        exact (Option.some.inj hslots).symm
      · simp [hnone] at hslots
    unfold held slotVolume candidateVolume
    congr 1
    rcases lookup_eq_none_or v.periodicVWAPStatsPerIssue s with hnone | ⟨slots, hsome⟩
    · rw [hnone]
      cases hlookup : (emplace v.periodicVWAPStatsPerIssue s' PeriodicStats.initial).lookup s with
      | none => rfl
      | some slots =>
          rw [hslots slots hlookup hnone]
          simp [PeriodicStats.initial]
    · have hkeep : (emplace v.periodicVWAPStatsPerIssue s' PeriodicStats.initial).lookup s =
          some slots := by
        rw [lookup_emplace_if]
        split_ifs with hs
        · rw [← hs, hsome, Option.getD_some]
        · exact hsome
      simp only [hkeep, hsome]
  · rw [if_pos hstate]
    rfl

theorem sum_update_volume (slots : PeriodicStats) (k : Period) (data : VWAPFormula) :
    (∑ i, (Function.update slots k data i).volume) + (slots k).volume =
      (∑ i, (slots i).volume) + data.volume := by
  have hupdate : (fun i => (Function.update slots k data i).volume) =
      Function.update (fun i => (slots i).volume) k data.volume := by
    funext i
    by_cases hi : i = k
    · subst hi
      simp
    · simp [Function.update_of_ne hi]
  rw [hupdate, Finset.sum_update_of_mem (Finset.mem_univ k),
    ← Finset.add_sum_erase _ _ (Finset.mem_univ k), Finset.sdiff_singleton_eq_erase]
  ac_rfl

theorem file_volume (data : VWAPFormula) (e : Execution) :
    (data.file e).volume = data.volume + if data.withholds e then 0 else e.volume := by
  by_cases hw : data.withholds e = true
  · simp [VWAPFormula.file, hw]
  · simp only [VWAPFormula.file, VWAPFormula.accept, hw]
    split_ifs <;> simp_all

theorem slotVolume_insert {slots : PeriodicStats} {k : Period} {s' : UInt16}
    (hslots : v.periodicVWAPStatsPerIssue.lookup s' = some slots)
    (candidates : UnorderedMap UInt64 BrokenTradeCandidate) :
    slotVolume { v with
      periodicVWAPStatsPerIssue := v.periodicVWAPStatsPerIssue.insert s'
        (Function.update slots k ((slots k).file e))
      brokenTradeCandidates := candidates } s =
    (if s' = s ∧ ¬ (slots k).withholds e then e.volume else 0) + v.slotVolume s := by
  unfold slotVolume
  by_cases hs : s' = s
  · subst hs
    have hsum := sum_update_volume slots k ((slots k).file e)
    rw [file_volume, add_left_comm, add_comm (slots k).volume, add_left_inj] at hsum
    simp only [Finmap.lookup_insert, hslots, hsum, true_and]
    by_cases hw : (slots k).withholds e = true <;> simp [hw, add_comm]
  · simp [Finmap.lookup_insert_of_ne _ (Ne.symm hs), hs]

theorem candidateVolume_insert {n : UInt64} (hfresh : n ∉ v.brokenTradeCandidates)
    (stats : UnorderedMap UInt16 PeriodicStats) (c : BrokenTradeCandidate) :
    candidateVolume { v with
      periodicVWAPStatsPerIssue := stats
      brokenTradeCandidates := v.brokenTradeCandidates.insert n c } s =
    (if c.stockLocate = s then c.executionVolume else 0) + v.candidateVolume s :=
  sumBy_insert_of_notMem _ hfresh c

/-- A filed execution is in the slot or in the candidate map, and not in both. -/
theorem held_handleOrderOrTradeExecuted (hfresh : e.matchNumber ∉ v.brokenTradeCandidates)
    (hv : VWAPManager.handleOrderOrTradeExecuted p v e = .ok v') (s : UInt16) :
    v'.held s = (if s ∈ v.periodicVWAPStatsPerIssue ∧ e.stockLocate = s then e.volume else 0)
      + v.held s := by
  rcases handleOrderOrTradeExecuted_eq_ok.1 hv with ⟨hnot, hv'⟩ | ⟨slots, k, hslots, -, hv'⟩
  · have hcase : ¬ (s ∈ v.periodicVWAPStatsPerIssue ∧ e.stockLocate = s) :=
      fun h => hnot (h.2 ▸ h.1)
    rw [if_neg hcase, zero_add, hv']
  · have hmem : e.stockLocate ∈ v.periodicVWAPStatsPerIssue :=
      Finmap.mem_of_lookup_eq_some hslots
    have hcase : (s ∈ v.periodicVWAPStatsPerIssue ∧ e.stockLocate = s) ↔ e.stockLocate = s :=
      ⟨And.right, fun h => ⟨h ▸ hmem, h⟩⟩
    simp only [hcase]
    subst hv'
    unfold held
    rw [slotVolume_insert hslots]
    by_cases hw : (slots k).withholds e = true
    · rw [if_pos hw, candidateVolume_insert hfresh, if_neg (fun h => h.2 hw)]
      simp only [Execution.toCandidate]
      ac_rfl
    · have hside : (e.stockLocate = s ∧ ¬ (slots k).withholds e) ↔ e.stockLocate = s :=
        and_iff_left hw
      simp only [if_neg hw, hside, add_assoc]
      rfl

end VWAPManager

/-! ## One message -/

variable {b : Build} {w w' : World} {m : Message} {stream : List Message}

theorem mem_candidates_step (h : consume b w m = .ok w') {n : UInt64}
    (hn : n ∈ w'.vwapManager.brokenTradeCandidates) :
    n ∈ w.vwapManager.brokenTradeCandidates ∨ m.matchNumber = some n := by
  obtain ⟨act, hbook, hv, -, -⟩ := consume_eq_ok.1 h
  obtain ⟨c, hc⟩ := Finmap.mem_iff.1 hn
  rcases (candidates_vwapStep (bookStep_asks hbook) hv n).2 c hc with hold | ⟨hnumber, -⟩
  · exact Or.inl (Finmap.mem_of_lookup_eq_some hold)
  · exact Or.inr hnumber

theorem Asks.opens_iff {close : UInt64} {act : Action} {s : UInt16} (h : Asks close m act) :
    (∃ stock, act = .tradingAction s stock stockIsTrading) ↔ m.opens s = true := by
  cases h with
  | idle _ _ hno => simp [Message.opens_eq_false hno]
  | brokenTrade t hm => simp [Message.opens, hm]
  | tradingAction a hm => simp [Message.opens, hm]
  | execution price volume number ht =>
      have hno : m.opens s = false := by
        apply Message.opens_eq_false
        intro a ha
        simp [Message.traded_eq_none (Or.inr ⟨a, ha⟩)] at ht
      simp [hno]

theorem mem_slots_step (h : consume b w m = .ok w') (s : UInt16) :
    s ∈ w'.vwapManager.periodicVWAPStatsPerIssue ↔
      s ∈ w.vwapManager.periodicVWAPStatsPerIssue ∨ m.opens s = true := by
  obtain ⟨act, hbook, hv, -, -⟩ := consume_eq_ok.1 h
  rw [← Finmap.lookup_isSome, ← Finmap.lookup_isSome, slots_vwapStep hv, isSome_slotsAfter,
    (bookStep_asks hbook).opens_iff]

/-- **One message.** What is held grows by what the message brings in for a known issue and
before the close, and shrinks by what it erases. -/
theorem held_step (h : consume b w m = .ok w')
    (hfresh : ∀ n, m.matchNumber = some n → n ∉ w.vwapManager.brokenTradeCandidates)
    (s : UInt16) :
    w'.vwapManager.held s + (erasedBy s w m).sum =
      m.sharesOf s (s ∈ w.vwapManager.periodicVWAPStatsPerIssue) w.marketCloseTimestamp
        + w.vwapManager.held s := by
  obtain ⟨act, hbook, hv, -, -⟩ := consume_eq_ok.1 h
  cases bookStep_asks hbook with
  | idle ht hbroken _ =>
      rw [← Except.ok.inj hv, erasedBy_eq_nil hbroken, Message.sharesOf_of_not_traded ht]
      simp
  | brokenTrade t hm =>
      rw [← Except.ok.inj hv, held_handleBrokenTrade _ s w m t rfl hm,
        Message.sharesOf_of_not_traded (Message.traded_eq_none (Or.inl ⟨t, hm⟩)), zero_add]
  | tradingAction a hm =>
      rw [← Except.ok.inj hv, held_handleStockTradingAction,
        erasedBy_eq_nil (fun t ht => by simp [hm] at ht),
        Message.sharesOf_of_not_traded (Message.traded_eq_none (Or.inr ⟨a, hm⟩))]
      simp
  | execution price volume number ht =>
      have hbroken : ∀ t, m.body ≠ .brokenTrade t := by
        intro t hm
        simp [Message.traded_eq_none (Or.inl ⟨t, hm⟩)] at ht
      rw [held_handleOrderOrTradeExecuted (hfresh _ (Message.traded_eq_some ht).2.2) hv,
        erasedBy_eq_nil hbroken, Message.sharesOf_of_traded ht]
      simp

/-! ## Runs -/

/-- **A run.** The same, added up over the messages. -/
theorem held_run (h : Run (Steps (consume b)) w stream w')
    (hdistinct : (stream.filterMap Message.matchNumber).Nodup)
    (hfresh : ∀ n ∈ stream.filterMap Message.matchNumber,
      n ∉ w.vwapManager.brokenTradeCandidates) (s : UInt16) :
    w'.vwapManager.held s + erasedVolume b s w stream =
      tradedShares s (s ∈ w.vwapManager.periodicVWAPStatsPerIssue) w.marketCloseTimestamp stream
        + w.vwapManager.held s := by
  induction h with
  | nil w => simp [erasedVolume, tradedShares]
  | @cons w w₁ w' m stream hstep hrun ih =>
      have hfresh₁ : ∀ n, m.matchNumber = some n → n ∉ w.vwapManager.brokenTradeCandidates :=
        fun n hn => hfresh n (List.mem_filterMap.2 ⟨m, List.mem_cons_self, hn⟩)
      -- The numbers still to come are not those of the new candidates.
      have htail : (stream.filterMap Message.matchNumber).Nodup ∧
          ∀ n ∈ stream.filterMap Message.matchNumber,
            n ∉ w₁.vwapManager.brokenTradeCandidates := by
        refine ⟨?_, fun n hn hmem => ?_⟩
        · cases hm : m.matchNumber with
          | none => rwa [List.filterMap_cons_none hm] at hdistinct
          | some n =>
              rw [List.filterMap_cons_some hm] at hdistinct
              exact (List.nodup_cons.1 hdistinct).2
        · rcases mem_candidates_step hstep hmem with hold | hm
          · obtain ⟨m', hm', hn'⟩ := List.mem_filterMap.1 hn
            exact hfresh n (List.mem_filterMap.2 ⟨m', List.mem_cons_of_mem _ hm', hn'⟩) hold
          · rw [List.filterMap_cons_some hm] at hdistinct
            exact (List.nodup_cons.1 hdistinct).1 hn
      have hone := held_step hstep hfresh₁ s
      have hrest := ih htail.1 htail.2
      obtain ⟨-, -, -, -, hclose⟩ := consume_eq_ok.1 hstep
      have hopened : decide (s ∈ w₁.vwapManager.periodicVWAPStatsPerIssue) =
          (decide (s ∈ w.vwapManager.periodicVWAPStatsPerIssue) || m.opens s) := by
        simp [mem_slots_step hstep s]
      rw [hopened, hclose] at hrest
      have herased : erasedVolume b s w (m :: stream) =
          (erasedBy s w m).sum + erasedVolume b s w₁ stream := by
        rw [erasedVolume, collect_cons hstep, List.sum_append, erasedVolume]
      calc w'.vwapManager.held s + erasedVolume b s w (m :: stream)
          = (w'.vwapManager.held s + erasedVolume b s w₁ stream) + (erasedBy s w m).sum := by
            rw [herased]
            ac_rfl
        _ = tradedShares s _ _ stream + (w₁.vwapManager.held s + (erasedBy s w m).sum) := by
            rw [hrest, add_assoc]
        _ = _ := by
            rw [hone, tradedShares]
            ac_rfl

/-- **Executed volume is conserved before the merge**, after every prefix of a stream that runs
through. Taken modulo `2 ^ 64`: slots, candidates and erased candidates of an issue account for
its traded shares. -/
theorem volume_conserved {done : List Message} (hrun : processAll b World.initial stream = .ok w)
    (hdistinct : (stream.filterMap Message.matchNumber).Nodup) (hdone : done <+: stream) :
    ∃ v, processAll b World.initial done = .ok v ∧
      ∀ s, v.vwapManager.slotVolume s + v.vwapManager.candidateVolume s +
          erasedVolume b s World.initial done =
        tradedShares s false uint64Max done := by
  obtain ⟨rest, rfl⟩ := hdone
  obtain ⟨v, hv, -⟩ := run_append_iff.1 (processAll_eq_ok.1 hrun)
  refine ⟨v, processAll_eq_ok.2 hv, fun s => ?_⟩
  rw [List.filterMap_append] at hdistinct
  have h := held_run hv (List.nodup_append.1 hdistinct).1
    (fun n _ => Finmap.notMem_empty) s
  have hopened : decide (s ∈ World.initial.vwapManager.periodicVWAPStatsPerIssue) = false :=
    decide_eq_false Finmap.notMem_empty
  have hempty : World.initial.vwapManager.held s = 0 := rfl
  rwa [hopened, hempty, add_zero] at h

/-- A trade, a withheld trade and the message that breaks it. -/
def brokenStream : List Message :=
  [startsTrading 1 (clock 9 0), trade 1 (clock 10 0) 100 100 1, trade 1 (clock 10 1) 200 10 2,
    breaksTrade 1 (clock 10 2) 2]

theorem volume_conserved_broken :
    ∃ v, processAll .release World.initial brokenStream = .ok v ∧
      ∀ s, v.vwapManager.slotVolume s + v.vwapManager.candidateVolume s +
          erasedVolume .release s World.initial brokenStream =
        tradedShares s false uint64Max brokenStream :=
  volume_conserved (processAll_after _ (by decide)) (by decide) List.prefix_rfl

/-- The hundred shares of the first trade are in a slot, the ten of the second are erased. -/
example : (World.after .release brokenStream).vwapManager.slotVolume 1 = 100 ∧
    erasedVolume .release 1 World.initial brokenStream = 10 := by decide

end NasdaqItch
