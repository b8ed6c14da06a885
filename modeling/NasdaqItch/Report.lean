import NasdaqItch.Merge

/-!
# The report

What `outputBrokenTradeAdjustedVWAP` prints, without its loop: in a consistent state it never
fails and treats each issue with slots once (`output_eq`), and the line of a period is the
cumulative price-volume divided by the cumulative volume, if there is any (`mem_reportOneIssue`).
-/

namespace NasdaqItch

open UnorderedMap Runs VWAPManager

/-- The periods from the first one up to `i`. -/
def periodsUpTo (i : Period) : List Period :=
  (List.finRange numberOfPeriodsPerDay).filter (· ≤ i)

theorem mem_periodsUpTo {i k : Period} : k ∈ periodsUpTo i ↔ k ≤ i := by
  simp [periodsUpTo]

theorem nodup_periodsUpTo (i : Period) : (periodsUpTo i).Nodup :=
  (List.nodup_finRange _).filter _

namespace PeriodicStats

variable (slots : PeriodicStats) (i : Period)

/-- The accumulator `cumulativePVForOneIssue` when the loop is at `i`. -/
def cumulativePV : UInt64 := ((periodsUpTo i).map fun k => (slots k).getPV).sum

/-- The accumulator `cumulativeVolumeForOneIssue` when the loop is at `i`. -/
def cumulativeVolume : UInt64 := ((periodsUpTo i).map fun k => (slots k).volume).sum

end PeriodicStats

theorem VWAPFormula.getPV_toNat {data : VWAPFormula}
    (h : data.getTypicalPrice.toNat * data.volume.toNat < 2 ^ 64) :
    data.getPV.toNat = data.getTypicalPrice.toNat * data.volume.toNat := by
  have hprice : data.getTypicalPrice.toUInt64.toNat = data.getTypicalPrice.toNat :=
    UInt32.toNat_toUInt64 _
  rw [getPV, UInt64.toNat_mul, hprice, Nat.mod_eq_of_lt h]

variable {symbol : Bytes} {slots : PeriodicStats} {i j : Period} {is ks : List Period}
  {pv volume : UInt64} {line : Line}

/-- The line the loop prints when, starting from these accumulators, it has gone through `ks`. -/
def Printed (symbol : Bytes) (slots : PeriodicStats) (pv volume : UInt64) (ks : List Period)
    (line : Line) : Prop :=
  volume + (ks.map fun k => (slots k).volume).sum ≠ 0 ∧
    line = ⟨symbol, ((pv + (ks.map fun k => (slots k).getPV).sum) /
      (volume + (ks.map fun k => (slots k).volume).sum)).toUInt32⟩

theorem printed_cons : Printed symbol slots pv volume (j :: ks) line ↔
    Printed symbol slots (pv + (slots j).getPV) (volume + (slots j).volume) ks line := by
  simp only [Printed, List.map_cons, List.sum_cons, add_assoc]

theorem reportLoop_append : reportLoop symbol slots (ks ++ is) pv volume =
    reportLoop symbol slots ks pv volume ++
      reportLoop symbol slots is (pv + (ks.map fun k => (slots k).getPV).sum)
        (volume + (ks.map fun k => (slots k).volume).sum) := by
  induction ks generalizing pv volume with
  | nil => simp [reportLoop]
  | cons j ks ih =>
      rw [List.cons_append, reportLoop, reportLoop]
      split_ifs with hzero
      · rw [ih]
        simp only [List.map_cons, List.sum_cons, add_assoc]
      · rw [ih]
        simp only [List.map_cons, List.sum_cons, add_assoc, List.cons_append]

theorem mem_reportLoop_cons : (i, line) ∈ reportLoop symbol slots (j :: is) pv volume ↔
    (i = j ∧ Printed symbol slots pv volume [j] line) ∨
      (i, line) ∈ reportLoop symbol slots is (pv + (slots j).getPV)
        (volume + (slots j).volume) := by
  simp only [reportLoop, Printed, List.map_cons, List.map_nil, List.sum_singleton]
  split_ifs with hzero
  · refine ⟨Or.inr, fun h => h.resolve_left fun ⟨_, hvolume, _⟩ => hvolume hzero⟩
  · rw [List.mem_cons, Prod.mk.injEq]
    exact or_congr_left (and_congr_right fun _ => (and_iff_right hzero).symm)

/-- The accumulators at a line are the sums over the periods the loop has seen. -/
theorem mem_reportLoop : (i, line) ∈ reportLoop symbol slots is pv volume ↔
    ∃ before after, is = before ++ i :: after ∧
      Printed symbol slots pv volume (before ++ [i]) line := by
  induction is generalizing pv volume with
  | nil => simp [reportLoop]
  | cons j is ih =>
      rw [mem_reportLoop_cons, ih]
      constructor
      · intro h
        rcases h with ⟨rfl, hline⟩ | ⟨before, after, rfl, hline⟩
        · exact ⟨[], is, rfl, hline⟩
        · exact ⟨j :: before, after, rfl, printed_cons.2 hline⟩
      · intro ⟨before, after, his, hline⟩
        cases before with
        | nil =>
            obtain ⟨rfl, rfl⟩ := List.cons.inj his
            exact Or.inl ⟨rfl, hline⟩
        | cons j' before =>
            obtain ⟨rfl, rfl⟩ := List.cons.inj his
            exact Or.inr ⟨before, after, rfl, printed_cons.1 hline⟩

/-- **The line of a period**, and when there is one. -/
theorem mem_reportOneIssue :
    (i, line) ∈ reportOneIssue symbol slots ↔
      slots.cumulativeVolume i ≠ 0 ∧
        line = ⟨symbol, (slots.cumulativePV i / slots.cumulativeVolume i).toUInt32⟩ := by
  -- In the increasing list of all periods, what stands up to `i` is what is at most `i`.
  have hsplit : ∀ before after : List Period,
      List.finRange numberOfPeriodsPerDay = before ++ i :: after →
        periodsUpTo i = before ++ [i] := by
    intro before after h
    have hsorted := List.pairwise_lt_finRange numberOfPeriodsPerDay
    rw [h, List.pairwise_append] at hsorted
    obtain ⟨-, htail, hcross⟩ := hsorted
    have hbefore : before.filter (· ≤ i) = before :=
      List.filter_eq_self.2 fun k hk => by simpa using (hcross k hk i List.mem_cons_self).le
    have hafter : after.filter (· ≤ i) = [] :=
      List.filter_eq_nil_iff.2 fun k hk => by simpa using List.rel_of_pairwise_cons htail hk
    rw [periodsUpTo, h, List.filter_append, List.filter_cons_of_pos (by simp), hbefore, hafter]
  have hprinted : (slots.cumulativeVolume i ≠ 0 ∧
      line = ⟨symbol, (slots.cumulativePV i / slots.cumulativeVolume i).toUInt32⟩) ↔
        Printed symbol slots 0 0 (periodsUpTo i) line := by
    simp only [Printed, zero_add]
    rfl
  rw [hprinted, reportOneIssue, mem_reportLoop]
  refine ⟨fun ⟨before, after, h, hline⟩ => hsplit before after h ▸ hline, fun hline => ?_⟩
  obtain ⟨before, after, h⟩ := List.append_of_mem (List.mem_finRange i)
  exact ⟨before, after, h, hsplit before after h ▸ hline⟩

/-- **What is printed.** In a consistent state the report never fails; it prints the lines of
every issue with slots, in some order of the issues, and leaves no candidates. -/
theorem output_eq {b : Build} {v : VWAPManager} (hv : v.Consistent)
    (order : IterationOrder v.brokenTradeCandidates)
    (issues : ∀ stats : UnorderedMap UInt16 PeriodicStats, IterationOrder stats) :
    ∃ out, outputBrokenTradeAdjustedVWAP b v order issues =
        .ok ({ v with brokenTradeCandidates := ∅ }, out) ∧
      ∀ s lines, (s, lines) ∈ out ↔ ∃ slots symbol,
        v.periodicVWAPStatsPerIssue.lookup s = some slots ∧
        v.stockLocateToStockSymbol.lookup s = some symbol ∧
        lines = reportOneIssue symbol slots := by
  have hround : ∀ e ∈ (issues v.periodicVWAPStatsPerIssue).entries,
      (do
        let currentStockSymbol ← symbolAt { v with brokenTradeCandidates := ∅ } e.1
        return (e.1, reportOneIssue currentStockSymbol e.2) : Except Fault _) =
      .ok (e.1, reportOneIssue ((v.stockLocateToStockSymbol.lookup e.1).getD []) e.2) := by
    intro e he
    have hslots := (issues v.periodicVWAPStatsPerIssue).mem_iff.1 he
    obtain ⟨symbol, hsymbol⟩ :=
      Finmap.mem_iff.1 (hv.symbol e.1 (Finmap.mem_of_lookup_eq_some hslots))
    simp [symbolAt, hsymbol]
  refine ⟨(issues v.periodicVWAPStatsPerIssue).entries.map fun e =>
    (e.1, reportOneIssue ((v.stockLocateToStockSymbol.lookup e.1).getD []) e.2), ?_,
    fun s lines => ?_⟩
  · unfold outputBrokenTradeAdjustedVWAP
    rw [merge_eq hv order, ok_bind, mapM_ok hround, ok_bind]
    rfl
  · rw [List.mem_map]
    refine ⟨fun ⟨e, he, heq⟩ => ?_, fun ⟨slots, symbol, hslots, hsymbol, hlines⟩ => ?_⟩
    · have hslots := (issues v.periodicVWAPStatsPerIssue).mem_iff.1 he
      obtain ⟨symbol, hsymbol⟩ :=
        Finmap.mem_iff.1 (hv.symbol e.1 (Finmap.mem_of_lookup_eq_some hslots))
      obtain ⟨rfl, rfl⟩ := Prod.mk.inj heq
      exact ⟨e.2, symbol, hslots, hsymbol, by rw [hsymbol, Option.getD_some]⟩
    · exact ⟨⟨s, slots⟩, (issues v.periodicVWAPStatsPerIssue).mem_iff.2 hslots,
        by rw [hsymbol, Option.getD_some, hlines]⟩

theorem output_mem {b : Build} {v : VWAPManager} (hv : v.Consistent)
    (order : IterationOrder v.brokenTradeCandidates)
    (issues : ∀ stats : UnorderedMap UInt16 PeriodicStats, IterationOrder stats) (s : UInt16)
    (symbol : Bytes) (lines : List (Period × Line))
    (hsymbol : v.stockLocateToStockSymbol.lookup s = some symbol)
    (hlines : (v.periodicVWAPStatsPerIssue.lookup s).map (reportOneIssue symbol) = some lines) :
    ∃ v' out, outputBrokenTradeAdjustedVWAP b v order issues = .ok (v', out) ∧
      (s, lines) ∈ out := by
  obtain ⟨out, hout, hmem⟩ := output_eq (b := b) hv order issues
  obtain ⟨slots, hslots, rfl⟩ := Option.map_eq_some_iff.1 hlines
  exact ⟨_, out, hout, (hmem s _).2 ⟨slots, symbol, hslots, hsymbol, rfl⟩⟩

/-! ## The lines of a file -/

/-- The set of lines that go to the file of period `i`. -/
def linesOf (out : List (UInt16 × List (Period × Line))) (i : Period) : Set Line :=
  {line | ∃ s lines, (s, lines) ∈ out ∧ (i, line) ∈ lines}

/-- Both states can be reported, in whatever order, and the file of period `i` gets the same set
of lines. -/
def SameLines (b : Build) (v v' : VWAPManager) (i : Period) : Prop :=
  ∀ order issues order' issues', ∃ u out u' out',
    outputBrokenTradeAdjustedVWAP b v order issues = .ok (u, out) ∧
      outputBrokenTradeAdjustedVWAP b v' order' issues' = .ok (u', out') ∧
      linesOf out i = linesOf out' i

/-- Going from `v₀` to `v`, no issue or symbol got lost, and no slot up to period `i` changed;
slots that are not there yet count as empty. -/
structure VWAPManager.KeepsUpTo (i : Period) (v₀ v : VWAPManager) : Prop where
  issue : ∀ s ∈ v₀.periodicVWAPStatsPerIssue, s ∈ v.periodicVWAPStatsPerIssue
  symbol : ∀ s symbol, v₀.stockLocateToStockSymbol.lookup s = some symbol →
    v.stockLocateToStockSymbol.lookup s = some symbol
  slots : ∀ s, ∀ j ≤ i, (v.periodicVWAPStatsPerIssue.lookup s).getD PeriodicStats.initial j =
    (v₀.periodicVWAPStatsPerIssue.lookup s).getD PeriodicStats.initial j

section Files

variable {b : Build} {v v' v₀ : VWAPManager} {slots' : PeriodicStats}

theorem VWAPManager.KeepsUpTo.mono (h : v₀.KeepsUpTo i v) (hj : j ≤ i) : v₀.KeepsUpTo j v :=
  ⟨h.issue, h.symbol, fun s j' hj' => h.slots s j' (hj'.trans hj)⟩

theorem cumulative_congr (h : ∀ j ≤ i, slots j = slots' j) :
    slots.cumulativeVolume i = slots'.cumulativeVolume i ∧
      slots.cumulativePV i = slots'.cumulativePV i := by
  constructor
  · exact congrArg List.sum (List.map_congr_left fun j hj => by rw [h j (mem_periodsUpTo.1 hj)])
  · exact congrArg List.sum (List.map_congr_left fun j hj => by rw [h j (mem_periodsUpTo.1 hj)])

theorem cumulativeVolume_initial (i : Period) : PeriodicStats.initial.cumulativeVolume i = 0 :=
  List.sum_eq_zero fun x hx => by
    obtain ⟨j, -, rfl⟩ := List.mem_map.1 hx
    rfl

/-- **The lines up to a period depend on the slots up to it**: they are those that the earlier
state would have printed. -/
theorem VWAPManager.KeepsUpTo.mem_report (h : v₀.KeepsUpTo i v) (hv₀ : v₀.Consistent) :
    (∃ s slots symbol, v.periodicVWAPStatsPerIssue.lookup s = some slots ∧
        v.stockLocateToStockSymbol.lookup s = some symbol ∧
        (i, line) ∈ reportOneIssue symbol slots) ↔
      ∃ s slots symbol, v₀.periodicVWAPStatsPerIssue.lookup s = some slots ∧
        v₀.stockLocateToStockSymbol.lookup s = some symbol ∧
        (i, line) ∈ reportOneIssue symbol slots := by
  have hsame : ∀ s slots slots₀, v.periodicVWAPStatsPerIssue.lookup s = some slots →
      (v₀.periodicVWAPStatsPerIssue.lookup s).getD PeriodicStats.initial = slots₀ →
      ∀ j ≤ i, slots j = slots₀ j := by
    intro s slots slots₀ hs hs₀ j hj
    have hslots := h.slots s j hj
    rw [hs, Option.getD_some, hs₀] at hslots
    exact hslots
  simp only [mem_reportOneIssue]
  constructor
  · intro ⟨s, slots, symbol, hs, hsymbol, hvolume, hline⟩
    rcases lookup_eq_none_or v₀.periodicVWAPStatsPerIssue s with hnone | ⟨slots₀, hs₀⟩
    · -- An issue that was opened since then has no volume up to this period.
      have hempty := cumulative_congr (hsame s slots _ hs (by rw [hnone, Option.getD_none]))
      rw [hempty.1, cumulativeVolume_initial] at hvolume
      exact absurd rfl hvolume
    · have hcumulative := cumulative_congr (hsame s slots slots₀ hs (by rw [hs₀, Option.getD_some]))
      obtain ⟨symbol₀, hsymbol₀⟩ :=
        Finmap.mem_iff.1 (hv₀.symbol s (Finmap.mem_of_lookup_eq_some hs₀))
      obtain rfl : symbol = symbol₀ :=
        Option.some.inj (hsymbol.symm.trans (h.symbol s symbol₀ hsymbol₀))
      rw [hcumulative.1, hcumulative.2] at hline
      rw [hcumulative.1] at hvolume
      exact ⟨s, slots₀, symbol, hs₀, hsymbol₀, hvolume, hline⟩
  · intro ⟨s, slots₀, symbol, hs₀, hsymbol₀, hvolume, hline⟩
    obtain ⟨slots, hs⟩ := Finmap.mem_iff.1 (h.issue s (Finmap.mem_of_lookup_eq_some hs₀))
    have hcumulative := cumulative_congr (hsame s slots slots₀ hs (by rw [hs₀, Option.getD_some]))
    rw [← hcumulative.1] at hvolume
    rw [← hcumulative.1, ← hcumulative.2] at hline
    exact ⟨s, slots, symbol, hs, h.symbol s symbol hsymbol₀, hvolume, hline⟩

theorem VWAPManager.KeepsUpTo.sameLines (h : v₀.KeepsUpTo i v) (h' : v₀.KeepsUpTo i v')
    (hv₀ : v₀.Consistent) (hv : v.Consistent) (hv' : v'.Consistent) : SameLines b v v' i := by
  intro order issues order' issues'
  obtain ⟨out, hout, hmem⟩ := output_eq (b := b) hv order issues
  obtain ⟨out', hout', hmem'⟩ := output_eq (b := b) hv' order' issues'
  refine ⟨_, out, _, out', hout, hout', Set.ext fun line => ?_⟩
  have hreport : ∀ {u out}, (∀ s lines, (s, lines) ∈ out ↔ ∃ slots symbol,
      u.periodicVWAPStatsPerIssue.lookup s = some slots ∧
        u.stockLocateToStockSymbol.lookup s = some symbol ∧
        lines = reportOneIssue symbol slots) → v₀.KeepsUpTo i u →
      (line ∈ linesOf out i ↔ ∃ s slots symbol,
        v₀.periodicVWAPStatsPerIssue.lookup s = some slots ∧
          v₀.stockLocateToStockSymbol.lookup s = some symbol ∧
          (i, line) ∈ reportOneIssue symbol slots) := by
    intro u out hmem hkeeps
    rw [← hkeeps.mem_report hv₀]
    constructor
    · intro ⟨s, lines, hlines, hline⟩
      obtain ⟨slots, symbol, hslots, hsymbol, rfl⟩ := (hmem s lines).1 hlines
      exact ⟨s, slots, symbol, hslots, hsymbol, hline⟩
    · intro ⟨s, slots, symbol, hslots, hsymbol, hline⟩
      exact ⟨s, _, (hmem s _).2 ⟨slots, symbol, hslots, hsymbol, rfl⟩, hline⟩
  exact (hreport hmem h).trans (hreport hmem' h').symm

end Files

/-! ## Nothing is missing -/

/-- Whatever is looked up in this state is there. -/
structure World.NothingMissing (w : World) : Prop where
  consistent : w.Consistent
  /-- `.at(currentPeriod)`, whatever the header of the next message says. -/
  counter : ∀ t, ∃ k, periodAt (processHeaderTimestamp w.currentPeriod t) = .ok k
  /-- `_stockLocateToStockSymbol.at`. -/
  symbol : ∀ s ∈ w.vwapManager.periodicVWAPStatsPerIssue, ∃ symbol,
    w.vwapManager.symbolAt s = .ok symbol
  /-- A round of the merge, on any candidate: the assertion holds where it is compiled in, and
  `operator[]` makes no entry. -/
  round : ∀ (b : Build) n c, w.vwapManager.brokenTradeCandidates.lookup n = some c →
    mergeOne b w.vwapManager.periodicVWAPStatsPerIssue c =
      .ok w.vwapManager.periodicVWAPStatsPerIssue
  /-- The whole merge, in any order. -/
  merge : ∀ (b : Build) order,
    mergeRemainingBrokenTradeCandidatesIntoVWAPStatsPerPeriod b w.vwapManager order =
      .ok { w.vwapManager with brokenTradeCandidates := ∅ }
  /-- The report, in any order. -/
  output : ∀ (b : Build) order issues, ∃ out,
    outputBrokenTradeAdjustedVWAP b w.vwapManager order issues =
      .ok ({ w.vwapManager with brokenTradeCandidates := ∅ }, out)

/-- **Counter and maps stay consistent**, and nothing that is looked up is ever missing. -/
theorem nothing_missing {b : Build} {w : World} (hw : Reachable b w) : w.NothingMissing := by
  have hconsistent := hw.consistent
  have hmaps := hconsistent.maps
  constructor
  · exact hconsistent
  · intro t
    have hlt := processHeaderTimestamp_lt hconsistent.period t
    exact ⟨⟨_, hlt⟩, periodAt_eq_ok.2 rfl⟩
  · intro s hs
    obtain ⟨symbol, hsymbol⟩ := Finmap.mem_iff.1 (hmaps.symbol s hs)
    exact ⟨symbol, by rw [symbolAt, hsymbol]⟩
  · intro b' n c hc
    exact mergeOne_eq (hmaps.candidate n c hc)
  · intro b' order
    exact merge_eq hmaps order
  · intro b' order issues
    obtain ⟨out, hout, -⟩ := output_eq (b := b') hmaps order issues
    exact ⟨out, hout⟩

/-- A halted issue, a known one with a withheld trade, and a trade of an unknown issue. -/
def mixedStream : List Message :=
  [⟨⟨'H'.toUInt8, 2, clock 8 0⟩, .stockTradingAction ⟨[66], 'H'.toUInt8, 32, []⟩⟩,
    startsTrading 1 (clock 9 0), trade 1 (clock 10 0) 100 100 1, trade 1 (clock 10 1) 200 10 2,
    trade 3 (clock 17 0) 100 100 3]

theorem nothing_missing_mixed : (World.after .release mixedStream).NothingMissing :=
  nothing_missing ⟨mixedStream, processAll_after _ (by decide)⟩

end NasdaqItch
