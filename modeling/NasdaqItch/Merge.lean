import NasdaqItch.Lib.WordSum
import NasdaqItch.Reachable

/-!
# The end-of-day merge

The merge is meant to fold every remaining candidate into the slot of its issue and of the period
its timestamp falls in. `MergeSpec` says what that makes of each slot.

The loop works on a *copy* of the slot (`VWAPFormula dataToUpdate = ...`, where the live path
takes a reference), so it stores nothing: in a consistent state all the merge does is empty the
candidate map (`merge_eq`). It therefore meets its specification only where a slot already
accounts for all of its candidates (`AlreadyMerged`).
-/

namespace NasdaqItch

open UnorderedMap Runs VWAPManager

/-! ## What the merge is for -/

/-- The candidates of issue `s` whose timestamp falls in period `k`. -/
def VWAPManager.candidatesOf (v : VWAPManager) (s : UInt16) (k : Period) :
    Multiset BrokenTradeCandidate :=
  (v.brokenTradeCandidates.entries.map (·.2)).filter fun c =>
    c.stockLocate = s ∧ (getCurrentPeriodFromTimestamp c.executionTimestamp).toNat = k

/-- The slot `old` with the candidates `R` folded in is `new`. -/
structure SlotMerged (old : VWAPFormula) (R : Multiset BrokenTradeCandidate)
    (new : VWAPFormula) : Prop where
  /-- A sum of machine words: modulo `2 ^ 64`. -/
  volume : new.volume = old.volume + (R.map BrokenTradeCandidate.executionVolume).sum
  high_le : old.high ≤ new.high ∧ ∀ c ∈ R, c.executionPrice ≤ new.high
  high_eq : new.high = old.high ∨ ∃ c ∈ R, new.high = c.executionPrice
  le_low : new.low ≤ old.low ∧ ∀ c ∈ R, new.low ≤ c.executionPrice
  low_eq : new.low = old.low ∨ ∃ c ∈ R, new.low = c.executionPrice
  /-- A candidate no earlier than the old closing trade: the close is a latest candidate's. -/
  closing : (∃ c ∈ R, old.closingTimestamp ≤ c.executionTimestamp) →
    ∃ c ∈ R, (∀ c' ∈ R, c'.executionTimestamp ≤ c.executionTimestamp) ∧
      new.closingTimestamp = c.executionTimestamp ∧ new.close = c.executionPrice
  not_closing : (¬ ∃ c ∈ R, old.closingTimestamp ≤ c.executionTimestamp) →
    new.closingTimestamp = old.closingTimestamp ∧ new.close = old.close
  untouched : R = 0 → new = old

/-- Every slot is merged with its own candidates, and no candidate is left. -/
structure MergeSpec (v v' : VWAPManager) : Prop where
  issues : ∀ s, s ∈ v'.periodicVWAPStatsPerIssue ↔ s ∈ v.periodicVWAPStatsPerIssue
  slots : ∀ s slots slots', v.periodicVWAPStatsPerIssue.lookup s = some slots →
    v'.periodicVWAPStatsPerIssue.lookup s = some slots' →
    ∀ k, SlotMerged (slots k) (v.candidatesOf s k) (slots' k)
  candidates : v'.brokenTradeCandidates = ∅

/-! ## What the merge does -/

variable {b : Build} {v : VWAPManager}

theorem mergeOne_eq {stats : UnorderedMap UInt16 PeriodicStats} {c : BrokenTradeCandidate}
    (h : c.stockLocate ∈ stats) : mergeOne b stats c = .ok stats := by
  have hassert {P : Prop} [Decidable P] (hP : P) : b.assert P = .ok () :=
    Build.assert_eq_ok.2 fun _ => hP
  unfold mergeOne
  simp only [hassert h, ok_bind]
  by_cases hk :
      (getCurrentPeriodFromTimestamp c.executionTimestamp).toNat < numberOfPeriodsPerDay
  · rw [dif_pos hk, hassert hk, emplace_of_mem _ h]
    rfl
  · rw [dif_neg hk]
    rfl

theorem mergeLoop_eq {stats : UnorderedMap UInt16 PeriodicStats}
    (l : List (Σ _ : UInt64, BrokenTradeCandidate)) (h : ∀ e ∈ l, e.2.stockLocate ∈ stats) :
    l.foldlM (fun stats e => mergeOne b stats e.2) stats = .ok stats := by
  induction l with
  | nil => rfl
  | cons e l ih =>
      rw [List.foldlM_cons, mergeOne_eq (h e List.mem_cons_self), ok_bind]
      exact ih fun e' he' => h e' (List.mem_cons_of_mem _ he')

/-- **The merge stores nothing.** In a consistent state it never fails, in whatever order it
visits the candidates, and all it does is forget them. -/
theorem merge_eq (hv : v.Consistent) (order : IterationOrder v.brokenTradeCandidates) :
    mergeRemainingBrokenTradeCandidatesIntoVWAPStatsPerPeriod b v order =
      .ok { v with brokenTradeCandidates := ∅ } := by
  have hloop := mergeLoop_eq (b := b) order.entries
    fun e he => hv.candidate e.1 e.2 (order.mem_iff.1 he)
  unfold mergeRemainingBrokenTradeCandidatesIntoVWAPStatsPerPeriod
  rw [hloop]
  rfl

/-! ## When that is enough -/

/-- Folding `R` into the slot would not change it. -/
structure AlreadyMerged (data : VWAPFormula) (R : Multiset BrokenTradeCandidate) : Prop where
  volume : (R.map BrokenTradeCandidate.executionVolume).sum = 0
  high : ∀ c ∈ R, c.executionPrice ≤ data.high
  low : ∀ c ∈ R, data.low ≤ c.executionPrice
  not_later : ∀ c ∈ R, c.executionTimestamp ≤ data.closingTimestamp
  close : (∃ c ∈ R, c.executionTimestamp = data.closingTimestamp) →
    ∃ c ∈ R, c.executionTimestamp = data.closingTimestamp ∧ c.executionPrice = data.close

theorem alreadyMerged_zero (data : VWAPFormula) : AlreadyMerged data 0 where
  volume := rfl
  high := by simp
  low := by simp
  not_later := by simp
  close := by simp

theorem slotMerged_self_iff {data : VWAPFormula} {R : Multiset BrokenTradeCandidate} :
    SlotMerged data R data ↔ AlreadyMerged data R := by
  refine ⟨fun h => ?_, fun h => ?_⟩
  · have hvolume : (R.map BrokenTradeCandidate.executionVolume).sum = 0 := by
      have := h.volume
      rwa [left_eq_add] at this
    refine ⟨hvolume, h.high_le.2, h.le_low.2, fun c hc => ?_, fun hex => ?_⟩
    · by_contra hlt
      have hle : data.closingTimestamp ≤ c.executionTimestamp :=
        UInt64.le_of_lt (UInt64.not_le.1 hlt)
      -- The latest candidate would have moved the closing timestamp.
      obtain ⟨d, -, hlatest, hts, -⟩ := h.closing ⟨c, hc, hle⟩
      exact hlt (hts ▸ hlatest c hc)
    · obtain ⟨c, hc, hts⟩ := hex
      obtain ⟨d, hd, -, hdts, hdclose⟩ := h.closing ⟨c, hc, UInt64.le_of_eq hts.symm⟩
      exact ⟨d, hd, hdts.symm, hdclose.symm⟩
  · refine ⟨?_, ⟨UInt32.le_refl _, h.high⟩, Or.inl rfl, ⟨UInt32.le_refl _, h.low⟩, Or.inl rfl,
      fun hex => ?_, fun _ => ⟨rfl, rfl⟩, fun _ => rfl⟩
    · rw [h.volume, add_zero]
    · obtain ⟨c, hc, hle⟩ := hex
      obtain ⟨d, hd, hts, hclose⟩ := h.close ⟨c, hc, UInt64.le_antisymm (h.not_later c hc) hle⟩
      exact ⟨d, hd, fun c' hc' => hts ▸ h.not_later c' hc', hts.symm, hclose.symm⟩

theorem not_alreadyMerged {data : VWAPFormula} {R : Multiset BrokenTradeCandidate} (hR : R ≠ 0)
    (hpos : ∀ c ∈ R, 0 < c.executionVolume.toNat)
    (hfits : (R.map fun c => c.executionVolume.toNat).sum < 2 ^ 64) : ¬ AlreadyMerged data R := by
  intro h
  obtain ⟨c, hc⟩ := Multiset.exists_mem_of_ne_zero hR
  obtain ⟨S, rfl⟩ := Multiset.exists_cons_of_mem hc
  have hzero := WordSum.toNat_sum ((c ::ₘ S).map BrokenTradeCandidate.executionVolume)
  rw [h.volume, Multiset.map_map, Nat.mod_eq_of_lt (by simpa using hfits), Multiset.map_cons,
    Multiset.sum_cons] at hzero
  have hcpos := hpos c hc
  simp only [UInt64.toNat_zero, Function.comp_apply] at hzero
  omega

theorem mergeSpec_forget_iff (v : VWAPManager) :
    MergeSpec v { v with brokenTradeCandidates := ∅ } ↔
      ∀ s slots, v.periodicVWAPStatsPerIssue.lookup s = some slots →
        ∀ k, AlreadyMerged (slots k) (v.candidatesOf s k) := by
  refine ⟨fun h s slots hslots k => ?_, fun h => ⟨fun _ => Iff.rfl, ?_, rfl⟩⟩
  · exact slotMerged_self_iff.1 (h.slots s slots slots hslots hslots k)
  · intro s slots slots' hslots hslots' k
    obtain rfl : slots = slots' := Option.some.inj (hslots.symm.trans hslots')
    exact slotMerged_self_iff.2 (h s slots hslots k)

/-- **When the merge does what it is for.** In a reachable state, and for any order of the
candidates, the slots stored afterwards are the merged ones exactly if each slot already
accounted for its candidates. -/
theorem merge_meets_spec_iff {w : World} (hw : Reachable b w)
    (order : IterationOrder w.vwapManager.brokenTradeCandidates) :
    (∃ v', mergeRemainingBrokenTradeCandidatesIntoVWAPStatsPerPeriod b w.vwapManager order
        = .ok v' ∧ MergeSpec w.vwapManager v') ↔
      ∀ s slots, w.vwapManager.periodicVWAPStatsPerIssue.lookup s = some slots →
        ∀ k, AlreadyMerged (slots k) (w.vwapManager.candidatesOf s k) := by
  rw [merge_eq hw.consistent.maps order, ← mergeSpec_forget_iff]
  refine ⟨fun ⟨v', hv', hspec⟩ => ?_, fun hspec => ⟨_, rfl, hspec⟩⟩
  exact Except.ok.inj hv' ▸ hspec

/-- With volumes that are positive and do not wrap, that is exactly when no candidate is left in
any of the day's periods. -/
theorem merge_meets_spec_iff_none_left {w : World} (hw : Reachable b w)
    (order : IterationOrder w.vwapManager.brokenTradeCandidates)
    (hpos : ∀ s k, ∀ c ∈ w.vwapManager.candidatesOf s k, 0 < c.executionVolume.toNat)
    (hfits : ∀ s k,
      ((w.vwapManager.candidatesOf s k).map fun c => c.executionVolume.toNat).sum < 2 ^ 64) :
    (∃ v', mergeRemainingBrokenTradeCandidatesIntoVWAPStatsPerPeriod b w.vwapManager order
        = .ok v' ∧ MergeSpec w.vwapManager v') ↔
      ∀ s ∈ w.vwapManager.periodicVWAPStatsPerIssue, ∀ k, w.vwapManager.candidatesOf s k = 0 := by
  rw [merge_eq hw.consistent.maps order]
  refine ⟨fun ⟨v', hv', hspec⟩ s hs k => ?_, fun h => ⟨_, rfl, ?_⟩⟩
  · obtain rfl := Except.ok.inj hv'
    obtain ⟨slots, hslots⟩ := Finmap.mem_iff.1 hs
    by_contra hne
    exact not_alreadyMerged hne (hpos s k) (hfits s k)
      ((mergeSpec_forget_iff _).1 hspec s slots hslots k)
  · refine (mergeSpec_forget_iff _).2 fun s slots hslots k => ?_
    rw [h s (Finmap.mem_of_lookup_eq_some hslots) k]
    exact alreadyMerged_zero _

/-- Two trades of issue 1 at 8:00, the second one withheld. -/
def earlyStream : List Message :=
  [startsTrading 1 (clock 7 0), trade 1 (clock 8 0) 100 100 1, trade 1 (clock 8 1) 200 10 2]

/-- A candidate stamped outside the day's periods is one the merge rightly drops. -/
theorem merge_meets_spec_early :
    ∃ v', mergeRemainingBrokenTradeCandidatesIntoVWAPStatsPerPeriod .release
        (World.after .release earlyStream).vwapManager
        ⟨[⟨2, ⟨200, clock 8 1, 10, 1⟩⟩], by decide⟩ = .ok v' ∧
      MergeSpec (World.after .release earlyStream).vwapManager v' := by
  refine (merge_meets_spec_iff ⟨earlyStream, processAll_after _ (by decide)⟩ _).2
    fun s slots _ k => ?_
  have hout : ∀ c ∈ (World.after .release earlyStream).vwapManager.brokenTradeCandidates.entries.map
      (·.2), ¬ (getCurrentPeriodFromTimestamp c.executionTimestamp).toNat < 7 := by decide
  have hnone : (World.after .release earlyStream).vwapManager.candidatesOf s k = 0 :=
    Multiset.filter_eq_nil.2 fun c hc h => hout c hc (h.2 ▸ k.isLt)
  exact hnone ▸ alreadyMerged_zero _

/-- Two trades of issue 1 at 10:00, the second one withheld and never broken. -/
def withheldStream : List Message :=
  [startsTrading 1 (clock 9 0), trade 1 (clock 10 0) 100 100 1, trade 1 (clock 10 1) 200 10 2]

/-- The ten shares of the withheld trade are lost. -/
theorem merge_loses_withheld_trade :
    processAll .release World.initial withheldStream = .ok (World.after .release withheldStream) ∧
      ∀ order v', mergeRemainingBrokenTradeCandidatesIntoVWAPStatsPerPeriod .release
          (World.after .release withheldStream).vwapManager order = .ok v' →
        ¬ MergeSpec (World.after .release withheldStream).vwapManager v' := by
  have hrun := processAll_after (b := .release) withheldStream (by decide)
  refine ⟨hrun, fun order v' hv' hspec => ?_⟩
  have hreach : Reachable .release (World.after .release withheldStream) := ⟨_, hrun⟩
  rw [merge_eq hreach.consistent.maps] at hv'
  obtain rfl := Except.ok.inj hv'
  obtain ⟨slots, hslots⟩ := Finmap.mem_iff.1 (show (1 : UInt16) ∈
    (World.after .release withheldStream).vwapManager.periodicVWAPStatsPerIssue by decide)
  have hvolume := ((mergeSpec_forget_iff _).1 hspec 1 slots hslots 1).volume
  exact absurd hvolume (by decide)

end NasdaqItch
