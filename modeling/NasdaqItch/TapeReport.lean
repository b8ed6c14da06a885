import NasdaqItch.ExactReport
import NasdaqItch.SlotStatistics
import NasdaqItch.Tape
import NasdaqItch.TypicalPrice

/-!
# The report against the tape

What the report is for: of each issue's trades leave out those too far from the trade before, take
for each hour the mean of high, low and close, and print for each hour the mean of these, weighted
by the volumes up to it. `Tape.vwap` is this in exact numbers, on the tape alone.

The program computes in 32 and 64 bits, starts with a low that it may never set, and holds its
numbers in slots. On a well-formed stream whose tape is `Regular` all this makes no difference: the
files get exactly the lines of the tape (`report_is_vwap`).
-/

namespace NasdaqItch

open UnorderedMap Runs VWAPManager

/-! ## The mean of the kept trades -/

/-- The trades that are not judged erroneous next to the price of the one before. -/
def keptAfter : Option UInt32 → List Execution → List Execution
  | _, [] => []
  | last, e :: es =>
      if last.any (flagOrderOrTradeAsErroneousCandidate e.price ·) then keptAfter (some e.price) es
      else e :: keptAfter (some e.price) es

/-- High, low and close of some trades, added. -/
def priceSumOf (es : List Execution) : Nat :=
  let prices := es.map (·.price.toNat)
  prices.max?.getD 0 + prices.min?.getD 0 + prices.getLastD 0

def volumeOf (es : List Execution) : Nat := (es.map (·.volume.toNat)).sum

namespace Tape

variable (t : Tape) (s : UInt16) (k i : Period)

/-- The trades of an issue and an hour that count. -/
def kept : List Execution := keptAfter none (t.slot s k)

def typicalPrice : Nat := priceSumOf (t.kept s k) / 3

/-- The volume of an issue up to an hour. -/
def volumeUpTo : Nat := ((periodsUpTo i).map fun k => volumeOf (t.kept s k)).sum

/-- The volume-weighted average price of an issue up to an hour. -/
def vwap : Nat :=
  ((periodsUpTo i).map fun k => t.typicalPrice s k * volumeOf (t.kept s k)).sum / t.volumeUpTo s i

/-- The lines of the file of an hour: the issues with a volume by then. -/
def lines : Set Line :=
  {line | ∃ s, t.symbol s = some line.symbol ∧ t.volumeUpTo s i ≠ 0 ∧ line.price.toNat = t.vwap s i}

/-- The prices and volumes of every issue that trades are such that the program's numbers hold
them. -/
structure Regular : Prop where
  /-- No price is the one that stands for "no trade yet". -/
  quoted : ∀ trade ∈ t.trades, trade.2.price ≠ uint32Max
  /-- Some trade of each slot sets the low. -/
  low : ∀ trade ∈ t.trades, ∀ k, t.kept trade.2.stockLocate k ≠ [] →
    SetsLow ((t.kept trade.2.stockLocate k).map (·.price))
  sum : ∀ trade ∈ t.trades, ∀ k, priceSumOf (t.kept trade.2.stockLocate k) < 2 ^ 32
  volume : ∀ trade ∈ t.trades, ∑ k, volumeOf (t.kept trade.2.stockLocate k) < 2 ^ 32

end Tape

/-! ## A slot -/

section Slots

variable {data : VWAPFormula} {es : List Execution} {t : Tape} {s : UInt16} {i k : Period}

/-- What a slot accepts are the trades that are kept. -/
theorem acceptedFrom_eq_keptAfter {last : Option UInt32}
    (hdata : data.lastSalePrice = last.getD uint32Max) (hlast : last ≠ some uint32Max)
    (hes : ∀ e ∈ es, e.price ≠ uint32Max) :
    VWAPFormula.acceptedFrom data es = keptAfter last es := by
  induction es generalizing data last with
  | nil => rfl
  | cons e es ih =>
      have hwithholds : data.withholds e =
          last.any (flagOrderOrTradeAsErroneousCandidate e.price ·) := by
        cases last with
        | none => simp [VWAPFormula.withholds, withheldAgainst, hdata]
        | some p =>
            have hp : p ≠ uint32Max := fun h => hlast (h ▸ rfl)
            simp [VWAPFormula.withholds, withheldAgainst, hdata, hp]
      have hrest : VWAPFormula.acceptedFrom (data.file e) es = keptAfter (some e.price) es :=
        ih rfl (fun h => hes e List.mem_cons_self (Option.some.inj h))
          fun e' he' => hes e' (List.mem_cons_of_mem _ he')
      rw [VWAPFormula.acceptedFrom, keptAfter, hwithholds, hrest]

theorem priceSum_eq (h : data.IsSummaryOf es) : data.priceSum = priceSumOf es := by
  have hhigh : (es.map (·.price.toNat)).max? = some data.high.toNat := by
    obtain ⟨e, he, hprice⟩ := h.high_mem
    refine List.max?_eq_some_iff.2 ⟨List.mem_map.2 ⟨e, he, by rw [hprice]⟩, fun p hp => ?_⟩
    obtain ⟨e', he', rfl⟩ := List.mem_map.1 hp
    exact UInt32.le_iff_toNat_le.1 (h.high_le e' he')
  have hlow : (es.map (·.price.toNat)).min? = some data.low.toNat := by
    obtain ⟨e, he, hprice⟩ := h.low_mem
    refine List.min?_eq_some_iff.2 ⟨List.mem_map.2 ⟨e, he, by rw [hprice]⟩, fun p hp => ?_⟩
    obtain ⟨e', he', rfl⟩ := List.mem_map.1 hp
    exact UInt32.le_iff_toNat_le.1 (h.le_low e' he')
  have hclose : (es.map (·.price.toNat)).getLastD 0 = data.close.toNat := by
    obtain ⟨e, he, -⟩ := h.high_mem
    have hlast := List.getLast?_eq_some_getLast (List.ne_nil_of_mem he)
    rw [List.getLastD_eq_getLast?, List.getLast?_map, hlast, Option.map_some, Option.getD_some,
      (h.last _ hlast).1]
  rw [VWAPFormula.priceSum, priceSumOf, hhigh, hlow, hclose, Option.getD_some, Option.getD_some]

theorem Tape.kept_eq_nil (h : t.slot s k = []) : t.kept s k = [] := by
  rw [Tape.kept, h, keptAfter]

theorem Tape.kept_or_traded (t : Tape) (s : UInt16) :
    (∀ k, t.kept s k = []) ∨ ∃ trade ∈ t.trades, trade.2.stockLocate = s := by
  by_cases hs : ∃ trade ∈ t.trades, trade.2.stockLocate = s
  · exact Or.inr hs
  · refine Or.inl fun k => kept_eq_nil ?_
    rw [Tape.slot, List.map_eq_nil_iff, List.filter_eq_nil_iff]
    intro trade htrade hin
    have hlocate : trade.1 = k ∧ trade.2.stockLocate = s := of_decide_eq_true hin
    exact hs ⟨trade, htrade, hlocate.2⟩

namespace Tape.Regular

theorem volume_lt (h : t.Regular) (s : UInt16) : ∑ k, volumeOf (t.kept s k) < 2 ^ 32 := by
  rcases t.kept_or_traded s with hnil | ⟨trade, htrade, rfl⟩
  · simp [hnil, volumeOf]
  · exact h.volume trade htrade

theorem summarises (h : t.Regular) (s : UInt16) (k : Period) :
    ((t.slot s k).foldl VWAPFormula.file {}).Summarises (t.kept s k) := by
  have hquoted : ∀ e ∈ t.slot s k, e.price ≠ uint32Max := by
    intro e he
    obtain ⟨trade, htrade, rfl⟩ := List.mem_map.1 he
    exact h.quoted trade (List.mem_of_mem_filter htrade)
  have haccepted : VWAPFormula.acceptedFrom {} (t.slot s k) = t.kept s k :=
    acceptedFrom_eq_keptAfter rfl nofun hquoted
  rw [← haccepted]
  exact VWAPFormula.summarises_initial.run

theorem volume_toNat (h : t.Regular) (s : UInt16) (k : Period) :
    ((t.slot s k).foldl VWAPFormula.file {}).volume.toNat = volumeOf (t.kept s k) := by
  have hle : volumeOf (t.kept s k) ≤ ∑ k, volumeOf (t.kept s k) :=
    Finset.single_le_sum (f := fun k => volumeOf (t.kept s k)) (fun _ _ => Nat.zero_le _)
      (Finset.mem_univ k)
  have hlt := h.volume_lt s
  have hfits : volumeOf (t.kept s k) < 2 ^ 64 := by omega
  rw [(h.summarises s k).volume]
  exact WordSum.toNat_sum_map (fun _ _ => rfl) hfits

/-- What a slot contributes to the report is what its hour contributes to the mean. -/
theorem product (h : t.Regular) (s : UInt16) (k : Period) :
    ((t.slot s k).foldl VWAPFormula.file {}).getTypicalPrice.toNat *
        ((t.slot s k).foldl VWAPFormula.file {}).volume.toNat =
      t.typicalPrice s k * volumeOf (t.kept s k) := by
  rw [h.volume_toNat]
  by_cases hnil : t.kept s k = []
  · rw [hnil, volumeOf, List.map_nil, List.sum_nil, Nat.mul_zero, Nat.mul_zero]
  · obtain ⟨trade, htrade, rfl⟩ : ∃ trade ∈ t.trades, trade.2.stockLocate = s :=
      (t.kept_or_traded s).resolve_left fun hall => hnil (hall k)
    have hsummary := ((h.summarises _ k).isSummaryOf_iff hnil).2 (h.low trade htrade k hnil)
    have hsum : ((t.slot trade.2.stockLocate k).foldl VWAPFormula.file {}).priceSum =
        priceSumOf (t.kept trade.2.stockLocate k) := priceSum_eq hsummary
    rw [VWAPFormula.getTypicalPrice_of_fits (hsum ▸ h.sum trade htrade k), hsum, typicalPrice]

/-! ## The lines -/

/-- **The lines of an issue** whose trades are on the tape. -/
theorem mem_report_iff (h : t.Regular) {symbol : Bytes} {line : Line} :
    (i, line) ∈ reportOneIssue symbol (fun k => (t.slot s k).foldl VWAPFormula.file {}) ↔
      line.symbol = symbol ∧ t.volumeUpTo s i ≠ 0 ∧ line.price.toNat = t.vwap s i := by
  have hfits : ∑ k, ((t.slot s k).foldl VWAPFormula.file {}).volume.toNat < 2 ^ 32 := by
    simpa only [h.volume_toNat] using h.volume_lt s
  have hvolume : PeriodicStats.exactVolume (fun k => (t.slot s k).foldl VWAPFormula.file {})
      (periodsUpTo i) = t.volumeUpTo s i :=
    congrArg List.sum (List.map_congr_left fun k _ => h.volume_toNat s k)
  have hpv : PeriodicStats.exactPV (fun k => (t.slot s k).foldl VWAPFormula.file {})
      (periodsUpTo i) =
        ((periodsUpTo i).map fun k => t.typicalPrice s k * volumeOf (t.kept s k)).sum :=
    congrArg List.sum (List.map_congr_left fun k _ => h.product s k)
  have hprinted : PeriodicStats.cumulativeVolume (fun k => (t.slot s k).foldl VWAPFormula.file {})
      i ≠ 0 ↔ t.volumeUpTo s i ≠ 0 := by
    rw [← hvolume, PeriodicStats.exactVolume_ne_zero]
    exact PeriodicStats.cumulativeVolume_ne_zero hfits
  have hvwap : t.vwap s i = ((periodsUpTo i).map fun k =>
      t.typicalPrice s k * volumeOf (t.kept s k)).sum / t.volumeUpTo s i := rfl
  constructor
  · intro hline
    have hprice := PeriodicStats.price_toNat hfits hline
    obtain ⟨hnonzero, heq⟩ := mem_reportOneIssue.1 hline
    refine ⟨by rw [heq], hprinted.1 hnonzero, ?_⟩
    rw [hprice, hpv, hvolume, hvwap]
  · rintro ⟨rfl, hnonzero, hprice⟩
    refine mem_reportOneIssue.2 ⟨hprinted.2 hnonzero, ?_⟩
    have hsome := PeriodicStats.price_toNat hfits
      (mem_reportOneIssue.2 ⟨hprinted.2 hnonzero, rfl⟩ :
        (i, ⟨line.symbol, _⟩) ∈ reportOneIssue line.symbol _)
    rw [hpv, hvolume, ← hvwap, ← hprice] at hsome
    exact congrArg (Line.mk line.symbol) (UInt32.toNat.inj hsome.symm)

end Tape.Regular

end Slots

theorem Tape.Records.exists_output {b : Build} {t : Tape} {w : World} (h : t.Records w)
    (hregular : t.Regular) (hw : w.vwapManager.Consistent)
    (order : IterationOrder w.vwapManager.brokenTradeCandidates)
    (issues : ∀ stats : UnorderedMap UInt16 PeriodicStats, IterationOrder stats) :
    ∃ v out, outputBrokenTradeAdjustedVWAP b w.vwapManager order issues = .ok (v, out) ∧
      ∀ i, linesOf out i = t.lines i := by
  obtain ⟨out, hout, hmem⟩ := output_eq (b := b) hw order issues
  refine ⟨_, out, hout, fun i => Set.ext fun line => ⟨?_, ?_⟩⟩
  · rintro ⟨s, lines, hlines, hline⟩
    obtain ⟨slots, symbol, hslots, hsymbol, rfl⟩ := (hmem s lines).1 hlines
    have hrecorded : t.slots s = some slots := (h.slots s).symm.trans hslots
    unfold Tape.slots at hrecorded
    split_ifs at hrecorded
    obtain rfl := Option.some.inj hrecorded
    obtain ⟨rfl, hvolume, hprice⟩ := hregular.mem_report_iff.1 hline
    exact ⟨s, (h.symbols s).symm.trans hsymbol, hvolume, hprice⟩
  · rintro ⟨s, hsymbol, hvolume, hprice⟩
    have htrading : t.IsTrading s := by
      by_contra hnot
      have hzero : t.volumeUpTo s i = 0 := List.sum_eq_zero fun x hx => by
        obtain ⟨k, -, rfl⟩ := List.mem_map.1 hx
        rw [Tape.kept_eq_nil (Tape.slot_eq_nil h.trading hnot k)]
        rfl
      exact hvolume hzero
    have hslots : w.slots s = some fun k => (t.slot s k).foldl VWAPFormula.file {} := by
      rw [h.slots, Tape.slots, if_pos htrading]
    exact ⟨s, _, (hmem s _).2 ⟨_, _, hslots, (h.symbols s).trans hsymbol, rfl⟩,
      hregular.mem_report_iff.2 ⟨rfl, hvolume, hprice⟩⟩

/-- **The report is the volume-weighted average price** of the exchange's trades that the
withholding test keeps, with the typical price of each hour rounded down. On a well-formed stream
with 48-bit timestamps whose tape is regular, and where an erased entry keeps its bytes until its
price is read, the program runs through, whatever the build, and every file gets exactly the lines
of the tape. -/
theorem report_is_vwap {b : Build} {stream : List Message}
    (hread : ∀ data, b.readErased data = data.price) (hwf : WellFormed stream)
    (h48 : ∀ m ∈ stream, m.timestamp.toNat < 2 ^ 48) (hregular : (Tape.after stream).Regular) :
    ∃ w, processAll b World.initial stream = .ok w ∧ ∀ order issues, ∃ v out,
      outputBrokenTradeAdjustedVWAP b w.vwapManager order issues = .ok (v, out) ∧
        ∀ i, linesOf out i = (Tape.after stream).lines i := by
  obtain ⟨w, hw, hrecords⟩ := tape_run hread hwf h48
  exact ⟨w, hw, hrecords.exists_output hregular (World.consistent_initial.processAll hw).maps⟩

/-- An order is executed twice, to zero; in the next hour the price falls, and a trade at twice the
price is withheld. -/
def fallingTape : List Message :=
  [startsTrading 1 (clock 9 0), ⟨⟨'A'.toUInt8, 1, clock 9 30⟩, .addOrder ⟨7, 66, 100, [65], 1000⟩⟩,
    ⟨⟨'E'.toUInt8, 1, clock 10 0⟩, .orderExecuted ⟨7, 30, 1⟩⟩,
    ⟨⟨'E'.toUInt8, 1, clock 10 1⟩, .orderExecuted ⟨7, 70, 2⟩⟩, trade 1 (clock 11 0) 990 10 3,
    trade 1 (clock 11 1) 980 20 4, trade 1 (clock 11 2) 1960 5 5]

theorem report_is_vwap_falling :
    ∃ w, processAll .release World.initial fallingTape = .ok w ∧ ∀ order issues, ∃ v out,
      outputBrokenTradeAdjustedVWAP .release w.vwapManager order issues = .ok (v, out) ∧
        ∀ i, linesOf out i = (Tape.after fallingTape).lines i :=
  report_is_vwap (fun _ => rfl) (by decide) (by decide)
    ⟨by decide, by decide, by decide, by decide⟩

/-- The mean of 100 shares at 1000 and 30 at 983. -/
example : (Tape.after fallingTape).vwap 1 2 = (1000 * 100 + 983 * 30) / 130 := by decide

end NasdaqItch
