import NasdaqItch.SlotStatistics

/-!
# How far the last sale price reaches

A slot keeps the price of the last execution filed into it, withheld or not, to judge the next
one. If that price had been another one, the next execution may be judged differently; from there
on the price is the same again. What the slot reports then differs by that one execution, and
whether the difference shows is a matter of the numbers (`stats_lastSalePrice_iff`): an execution
with shares always shows in the volume, one without shares in the high, the low or the close, or
not at all (`Absorbs`).
-/

namespace NasdaqItch

/-! ## Statistics -/

/-- What a slot reports. The last sale price only serves the heuristic. -/
def VWAPFormula.stats (data : VWAPFormula) : UInt64 × UInt32 × UInt32 × UInt32 × UInt64 :=
  (data.volume, data.high, data.low, data.close, data.closingTimestamp)

namespace VWAPFormula

variable {data data' : VWAPFormula} {z : Execution} {es : List Execution} {p : UInt32}

/-- The low after `es` were accepted. -/
def lowAfter (data : VWAPFormula) (es : List Execution) : UInt32 :=
  (dips data.high (es.map (·.price))).foldl (fun low p => if p < low then p else low) data.low

/-- Accepting `z` before `es` does not show in the statistics. -/
structure Absorbs (data : VWAPFormula) (z : Execution) (es : List Execution) : Prop where
  volume : z.volume = 0
  high : z.price ≤ data.high ∨ ∃ e ∈ es, z.price ≤ e.price
  /-- Neither its price nor the high that it sets moves the low. -/
  low : data.lowAfter (z :: es) = data.lowAfter es
  last : es = [] → data.close = z.price ∧ data.closingTimestamp = z.timestamp

instance : Decidable (data.Absorbs z es) :=
  decidable_of_iff (z.volume = 0 ∧ (z.price ≤ data.high ∨ ∃ e ∈ es, z.price ≤ e.price) ∧
      data.lowAfter (z :: es) = data.lowAfter es ∧
      (es = [] → data.close = z.price ∧ data.closingTimestamp = z.timestamp))
    ⟨fun ⟨hvolume, hhigh, hlow, hlast⟩ => ⟨hvolume, hhigh, hlow, hlast⟩,
      fun h => ⟨h.volume, h.high, h.low, h.last⟩⟩

/-! ## Accepting some executions -/

theorem accept_high (data : VWAPFormula) (e : Execution) :
    (data.accept e).high = if e.price > data.high then e.price else data.high := by
  unfold accept
  dsimp only
  split_ifs <;> rfl

theorem accept_low (data : VWAPFormula) (e : Execution) : (data.accept e).low =
    if e.price > data.high then data.low else if e.price < data.low then e.price else data.low := by
  unfold accept
  dsimp only
  split_ifs <;> rfl

theorem accept_volume (data : VWAPFormula) (e : Execution) :
    (data.accept e).volume = data.volume + e.volume := by
  unfold accept
  dsimp only
  split_ifs <;> rfl

theorem volume_foldl_accept (data : VWAPFormula) (es : List Execution) :
    (es.foldl accept data).volume = data.volume + (es.map (·.volume)).sum := by
  induction es generalizing data with
  | nil => simp
  | cons e es ih => rw [List.foldl_cons, ih, accept_volume, List.map_cons, List.sum_cons, add_assoc]

theorem le_high_foldl_accept :
    p ≤ (es.foldl accept data).high ↔ p ≤ data.high ∨ ∃ e ∈ es, p ≤ e.price := by
  induction es generalizing data with
  | nil => simp
  | cons e es ih =>
      rw [List.foldl_cons, ih, accept_high]
      have hstep : p ≤ (if e.price > data.high then e.price else data.high) ↔
          p ≤ data.high ∨ p ≤ e.price := by
        split_ifs with h <;> grind
      rw [hstep]
      simp [or_assoc]

theorem low_foldl_accept (data : VWAPFormula) (es : List Execution) :
    (es.foldl accept data).low = data.lowAfter es := by
  induction es generalizing data with
  | nil => rfl
  | cons e es ih =>
      rw [List.foldl_cons, ih, lowAfter, lowAfter, accept_high, accept_low, List.map_cons, dips]
      by_cases h : e.price > data.high
      · simp only [h, if_true]
      · simp only [h, if_false, List.foldl_cons]

/-- The last one accepted closes the slot, whatever was in it. -/
theorem close_foldl_accept (hne : es ≠ []) (data data' : VWAPFormula) :
    (es.foldl accept data).close = (es.foldl accept data').close ∧
      (es.foldl accept data).closingTimestamp = (es.foldl accept data').closingTimestamp := by
  obtain ⟨init, e, rfl⟩ := (List.eq_nil_or_concat' es).resolve_left hne
  rw [List.foldl_concat, List.foldl_concat]
  exact ⟨rfl, rfl⟩

theorem stats_eq_iff : data.stats = data'.stats ↔ data.volume = data'.volume ∧
    data.high = data'.high ∧ data.low = data'.low ∧ data.close = data'.close ∧
      data.closingTimestamp = data'.closingTimestamp := by
  simp only [stats, Prod.mk.injEq]

/-- **When an execution does not show**, given those accepted after it. -/
theorem stats_accept_iff : ((z :: es).foldl accept data).stats = (es.foldl accept data).stats ↔
    data.Absorbs z es := by
  have hvolume : ((z :: es).foldl accept data).volume = (es.foldl accept data).volume ↔
      z.volume = 0 := by
    rw [volume_foldl_accept, volume_foldl_accept, List.map_cons, List.sum_cons, add_left_cancel_iff,
      add_eq_right]
  have hhigh : ((z :: es).foldl accept data).high = (es.foldl accept data).high ↔
      z.price ≤ data.high ∨ ∃ e ∈ es, z.price ≤ e.price := by
    rw [← le_high_foldl_accept]
    refine ⟨fun h => h ▸ le_high_foldl_accept.2 (Or.inr ⟨z, List.mem_cons_self, UInt32.le_refl _⟩),
      fun h => ?_⟩
    -- The higher of the two highs is `z`'s price, or a price that both have.
    refine UInt32.le_antisymm ?_ (le_high_foldl_accept.2 ?_)
    · rcases le_high_foldl_accept.1 (UInt32.le_refl ((z :: es).foldl accept data).high) with
        hold | ⟨e, he, hle⟩
      · exact le_high_foldl_accept.2 (Or.inl hold)
      · rcases List.mem_cons.1 he with rfl | he
        · exact UInt32.le_trans hle h
        · exact le_high_foldl_accept.2 (Or.inr ⟨e, he, hle⟩)
    · rcases le_high_foldl_accept.1 (UInt32.le_refl (es.foldl accept data).high) with
        hold | ⟨e, he, hle⟩
      · exact Or.inl hold
      · exact Or.inr ⟨e, List.mem_cons_of_mem _ he, hle⟩
  rw [stats_eq_iff, hvolume, hhigh, low_foldl_accept, low_foldl_accept]
  constructor
  · rintro ⟨hzero, hle, hlow, hclose, htime⟩
    refine ⟨hzero, hle, hlow, ?_⟩
    rintro rfl
    exact ⟨hclose.symm, htime.symm⟩
  · intro h
    refine ⟨h.volume, h.high, h.low, ?_⟩
    by_cases hnil : es = []
    · subst hnil
      exact ⟨(h.last rfl).1.symm, (h.last rfl).2.symm⟩
    · exact close_foldl_accept hnil _ _

/-! ## Filing some executions -/

theorem acceptedFrom_congr (h : data.lastSalePrice = data'.lastSalePrice) :
    acceptedFrom data es = acceptedFrom data' es := by
  induction es generalizing data data' with
  | nil => rfl
  | cons e es ih =>
      have hsame : data.withholds e = data'.withholds e := by rw [withholds, withholds, h]
      -- From here on the last sale price is that of `e` in both.
      have hrest : acceptedFrom (data.file e) es = acceptedFrom (data'.file e) es := ih rfl
      rw [acceptedFrom, acceptedFrom, hsame, hrest]

theorem stats_accept_congr (h : data.stats = data'.stats) (e : Execution) :
    (data.accept e).stats = (data'.accept e).stats := by
  obtain ⟨hvolume, hhigh, hlow, -, -⟩ := stats_eq_iff.1 h
  rw [stats_eq_iff, accept_volume, accept_volume, accept_high, accept_high, accept_low, accept_low,
    hvolume, hhigh, hlow]
  exact ⟨rfl, rfl, rfl, rfl, rfl⟩

theorem stats_foldl_accept_congr (h : data.stats = data'.stats) :
    (es.foldl accept data).stats = (es.foldl accept data').stats := by
  induction es generalizing data data' with
  | nil => exact h
  | cons e es ih => exact ih (stats_accept_congr h e)

/-- The statistics are those of the executions accepted. -/
theorem stats_foldl_file (data : VWAPFormula) (es : List Execution) :
    (es.foldl file data).stats = ((acceptedFrom data es).foldl accept data).stats := by
  induction es generalizing data with
  | nil => rfl
  | cons e es ih =>
      rw [List.foldl_cons, ih, acceptedFrom]
      split_ifs with hw
      · have hfile : (data.file e).stats = data.stats := by
          rw [file, if_pos hw]
          rfl
        exact stats_foldl_accept_congr hfile
      · have hfile : (data.file e).stats = (data.accept e).stats := by
          rw [file, if_neg hw]
          rfl
        exact stats_foldl_accept_congr hfile

/-! ## Another last sale price -/

/-- The executions `es` leave the same statistics if the last sale price before them was `p`: the
first of them is judged the same, or it does not show. -/
def Forgets (data : VWAPFormula) (p : UInt32) : List Execution → Prop
  | [] => True
  | z :: es =>
      withheldAgainst p z.price = withheldAgainst data.lastSalePrice z.price ∨
        data.Absorbs z (acceptedFrom { data with lastSalePrice := z.price } es)

instance (data : VWAPFormula) (p : UInt32) : DecidablePred (data.Forgets p)
  | [] => inferInstanceAs (Decidable True)
  | z :: es => inferInstanceAs (Decidable (_ = _ ∨ data.Absorbs z (acceptedFrom _ es)))

/-- **How far the last sale price reaches.** -/
theorem stats_lastSalePrice_iff (data : VWAPFormula) (p : UInt32) (es : List Execution) :
    (es.foldl file { data with lastSalePrice := p }).stats = (es.foldl file data).stats ↔
      data.Forgets p es := by
  cases es with
  | nil => exact iff_of_true rfl trivial
  | cons z es =>
      rw [Forgets, stats_foldl_file, stats_foldl_file, acceptedFrom, acceptedFrom]
      have hlater : acceptedFrom ((({ data with lastSalePrice := p } : VWAPFormula)).file z) es =
          acceptedFrom { data with lastSalePrice := z.price } es := acceptedFrom_congr rfl
      have hlater' : acceptedFrom (data.file z) es =
          acceptedFrom { data with lastSalePrice := z.price } es := acceptedFrom_congr rfl
      have hsame (es : List Execution) :
          (es.foldl accept ({ data with lastSalePrice := p } : VWAPFormula)).stats =
            (es.foldl accept data).stats := stats_foldl_accept_congr rfl
      rw [hlater, hlater', hsame, ← stats_accept_iff, withholds, withholds]
      -- Judged differently, `z` is accepted in one of the two and not in the other.
      cases withheldAgainst p z.price <;>
        cases withheldAgainst data.lastSalePrice z.price <;> simp [eq_comm]

end VWAPFormula

end NasdaqItch
