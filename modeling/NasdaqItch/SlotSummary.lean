import NasdaqItch.Reachable
import NasdaqItch.VWAPStep

/-!
# What a slot remembers

A slot holds numbers; the executions they come from are ghosts. `accepted` lists the executions
that a stream adds to the slots of an issue, in order, and `Summarises` says what the numbers
are: volume, closing price and high are what their names say, but low is the lowest of the
`dips` only, the prices that did not exceed the high of the moment, because the test for a new
low stands in the `else` of the test for a new high.

* `slots_step`: what one message does to the slots of an issue.
* `summarises_run`: after a stream, every slot summarises the executions it accepted.
-/

namespace NasdaqItch

open UnorderedMap Runs VWAPManager

/-! ## Prices in order -/

/-- The highest of some prices, kept as `high` is: from its initial value upwards. -/
def highestPrice (prices : List UInt32) : UInt32 :=
  prices.foldl (fun high p => if p > high then p else high) 0

/-- The lowest of some prices, kept as `low` is: from its initial value downwards. -/
def lowestPrice (prices : List UInt32) : UInt32 :=
  prices.foldl (fun low p => if p < low then p else low) uint32Max

/-- The prices that do not exceed all that came before, with `high` the highest so far. -/
def dips : (high : UInt32) → List UInt32 → List UInt32
  | _, [] => []
  | high, p :: prices => if p > high then dips p prices else p :: dips high prices

section Prices

variable {prices : List UInt32} {p : UInt32}

@[simp] theorem highestPrice_concat : highestPrice (prices ++ [p]) =
    if p > highestPrice prices then p else highestPrice prices := by
  unfold highestPrice
  rw [List.foldl_concat]

@[simp] theorem lowestPrice_concat : lowestPrice (prices ++ [p]) =
    if p < lowestPrice prices then p else lowestPrice prices := by
  unfold lowestPrice
  rw [List.foldl_concat]

theorem dips_concat : dips 0 (prices ++ [p]) =
    dips 0 prices ++ if p > highestPrice prices then [] else [p] := by
  -- The high at the end of the list is the fold from the high at its start.
  suffices h : ∀ high, dips high (prices ++ [p]) = dips high prices ++
      if p > prices.foldl (fun high p => if p > high then p else high) high then [] else [p] from
    h 0
  induction prices with
  | nil => simp [dips]
  | cons q prices ih =>
      intro high
      simp only [List.cons_append, dips, List.foldl_cons]
      by_cases hq : q > high
      · simp only [hq, if_true, ih]
      · simp only [hq, if_false, ih, List.cons_append]

theorem mem_of_mem_dips {high : UInt32} (h : p ∈ dips high prices) : p ∈ prices := by
  induction prices generalizing high with
  | nil => simp [dips] at h
  | cons q prices ih =>
      unfold dips at h
      split_ifs at h
      · exact List.mem_cons_of_mem _ (ih h)
      · rcases List.mem_cons.1 h with rfl | h
        · exact List.mem_cons_self
        · exact List.mem_cons_of_mem _ (ih h)

theorem le_highestPrice (h : p ∈ prices) : p ≤ highestPrice prices := by
  induction prices using List.reverseRecOn with
  | nil => simp at h
  | append_singleton prices q ih =>
      rw [highestPrice_concat]
      rcases List.mem_append.1 h with h | h
      · have := ih h
        grind
      · rw [List.mem_singleton] at h
        grind

theorem highestPrice_mem (h : prices ≠ []) : highestPrice prices ∈ prices := by
  induction prices using List.reverseRecOn with
  | nil => exact absurd rfl h
  | append_singleton prices q ih =>
      rw [highestPrice_concat]
      split_ifs with hq
      · exact List.mem_append_right _ (List.mem_singleton_self q)
      · by_cases hnil : prices = []
        · -- The first price does not exceed 0, so it is 0.
          subst hnil
          have hzero : highestPrice [] = 0 := rfl
          rw [hzero] at hq ⊢
          have : q = 0 := by grind
          simp [this]
        · exact List.mem_append_left _ (ih hnil)

theorem lowestPrice_le (h : p ∈ prices) : lowestPrice prices ≤ p := by
  induction prices using List.reverseRecOn with
  | nil => simp at h
  | append_singleton prices q ih =>
      rw [lowestPrice_concat]
      rcases List.mem_append.1 h with h | h
      · have := ih h
        grind
      · rw [List.mem_singleton] at h
        grind

theorem lowestPrice_mem (h : prices ≠ []) : lowestPrice prices ∈ prices := by
  induction prices using List.reverseRecOn with
  | nil => exact absurd rfl h
  | append_singleton prices q ih =>
      rw [lowestPrice_concat]
      split_ifs with hq
      · exact List.mem_append_right _ (List.mem_singleton_self q)
      · by_cases hnil : prices = []
        · subst hnil
          have hmax : lowestPrice [] = uint32Max := rfl
          rw [hmax] at hq ⊢
          have : q = uint32Max := by
            have := UInt32.le_iff_toNat_le.1 (UInt32.not_lt.1 hq)
            have := q.toNat_lt
            refine UInt32.toNat.inj ?_
            simp [uint32Max] at *
            omega
          simp [this]
        · exact List.mem_append_left _ (ih hnil)

end Prices

/-! ## Slots and the executions in them -/

/-- The numbers of a slot that accepted `es`, in this order. The last sale price is not among
them: withheld executions move it too. -/
structure VWAPFormula.Summarises (data : VWAPFormula) (es : List Execution) : Prop where
  high : data.high = highestPrice (es.map (·.price))
  low : data.low = lowestPrice (dips 0 (es.map (·.price)))
  close : data.close = (es.map (·.price)).getLastD 0
  closingTimestamp : data.closingTimestamp = (es.map (·.timestamp)).getLastD 0
  volume : data.volume = (es.map (·.volume)).sum

namespace VWAPFormula

variable {data : VWAPFormula} {es : List Execution}

theorem summarises_initial : ({} : VWAPFormula).Summarises [] := ⟨rfl, rfl, rfl, rfl, rfl⟩

theorem Summarises.accept (h : data.Summarises es) (e : Execution) :
    (data.accept e).Summarises (es ++ [e]) := by
  have hhigh := h.high
  have hlow := h.low
  unfold VWAPFormula.accept
  refine ⟨?_, ?_, ?_, ?_, ?_⟩
  · simp only [List.map_append, List.map_cons, List.map_nil, highestPrice_concat, ← hhigh]
    split_ifs <;> rfl
  · simp only [List.map_append, List.map_cons, List.map_nil, dips_concat, ← hhigh]
    -- A new high is no dip, and a dip is compared with the low so far.
    by_cases hnew : e.price > data.high
    · simp [hnew, hlow]
    · rw [if_neg hnew, if_neg hnew, lowestPrice_concat, ← hlow]
      split_ifs <;> rfl
  · simp
  · simp
  · simp only [List.map_append, List.map_cons, List.map_nil, List.sum_append, List.sum_singleton,
      ← h.volume]
    split_ifs <;> rfl

theorem Summarises.file (h : data.Summarises es) (e : Execution) :
    (data.file e).Summarises (es ++ if data.withholds e then [] else [e]) := by
  unfold VWAPFormula.file
  by_cases hw : data.withholds e = true
  · simpa [hw] using (⟨h.high, h.low, h.close, h.closingTimestamp, h.volume⟩ :
      ({ data with lastSalePrice := e.price } : VWAPFormula).Summarises es)
  · have hacc := h.accept e
    simpa [hw] using (⟨hacc.high, hacc.low, hacc.close, hacc.closingTimestamp, hacc.volume⟩ :
      ({ data.accept e with lastSalePrice := e.price } : VWAPFormula).Summarises (es ++ [e]))

end VWAPFormula

/-! ## What one message does to the slots of an issue -/

/-- The execution that a message adds to a slot of issue `s`, with the index of the slot. -/
def acceptedBy (b : Build) (s : UInt16) (w : World) (m : Message) : List (Period × Execution) :=
  match bookStep b w.marketCloseTimestamp w.orderBook m, w.slots s,
      periodAt (processHeaderTimestamp w.currentPeriod m.timestamp) with
  | .ok (_, .execution e), some slots, .ok k =>
      if e.stockLocate = s ∧ ¬ (slots k).withholds e then [(k, e)] else []
  | _, _, _ => []

/-- The executions that a stream adds to the slots of issue `s`. -/
def accepted (b : Build) (s : UInt16) (w : World) (stream : List Message) :
    List (Period × Execution) :=
  collect (consume b) (acceptedBy b s) w stream

/-- Those in slot `k`. -/
def inSlot (k : Period) (es : List (Period × Execution)) : List Execution :=
  (es.filter (·.1 = k)).map (·.2)

/-- The ways a message can change the slots of issue `s`. -/
inductive SlotsStep (b : Build) (s : UInt16) (w w' : World) (m : Message) : Prop
  | same : w'.slots s = w.slots s → acceptedBy b s w m = [] → SlotsStep b s w w' m
  | opened : m.stockLocate = s → w.slots s = none → w'.slots s = some PeriodicStats.initial →
      acceptedBy b s w m = [] → SlotsStep b s w w' m
  | filed (e : Execution) (slots : PeriodicStats) (k : Period) :
      bookStep b w.marketCloseTimestamp w.orderBook m = .ok (w'.orderBook, .execution e) →
      e.stockLocate = s → w'.currentPeriod.toNat = k → w.slots s = some slots →
      w'.slots s = some (Function.update slots k ((slots k).file e)) →
      acceptedBy b s w m = (if (slots k).withholds e then [] else [(k, e)]) →
      SlotsStep b s w w' m

variable {b : Build} {w w' : World} {m : Message} {stream : List Message}

theorem slots_step (h : consume b w m = .ok w') (s : UInt16) : SlotsStep b s w w' m := by
  obtain ⟨act, hbook, hv, hperiod, -⟩ := consume_eq_ok.1 h
  have hslots : w'.slots s = slotsAfter w'.currentPeriod act s (w.slots s) := slots_vwapStep hv s
  have hidle : (∀ e, act = .execution e → e.stockLocate = s → w.slots s = none) →
      acceptedBy b s w m = [] := by
    intro hnone
    unfold acceptedBy
    rw [hbook]
    split
    · rename_i e slots k heq hsome _
      obtain ⟨-, heq⟩ := Prod.mk.inj (Except.ok.inj heq)
      refine if_neg fun hs => ?_
      rw [hnone e heq hs.1] at hsome
      exact absurd hsome.symm (Option.some_ne_none _)
    · rfl
  cases act with
  | idle => exact .same hslots (hidle (by simp))
  | brokenTrade n => exact .same hslots (hidle (by simp))
  | tradingAction s' stock state =>
      have hlocate : s' = m.stockLocate := by
        cases bookStep_asks hbook
        rfl
      rw [slotsAfter] at hslots
      split_ifs at hslots with hopen
      · cases hs : w.slots s with
        | none => exact .opened (hlocate ▸ hopen.1) hs (by rw [hslots, hs]; rfl) (hidle (by simp))
        | some slots => exact .same (by rw [hslots, hs]; rfl) (hidle (by simp))
      · exact .same hslots (hidle (by simp))
  | execution e =>
      rw [slotsAfter] at hslots
      by_cases hs : e.stockLocate = s
      · cases hsome : w.slots s with
        | none =>
            refine .same (by rw [hslots, hsome, if_pos hs]; rfl) (hidle fun _ _ _ => hsome)
        | some slots =>
            rcases handleOrderOrTradeExecuted_eq_ok.1 hv with ⟨hnot, -⟩ | ⟨_, k, -, hk, -⟩
            · exact absurd (hs ▸ Finmap.mem_of_lookup_eq_some hsome) hnot
            · have hindex : periodAt (processHeaderTimestamp w.currentPeriod m.timestamp) = .ok k :=
                periodAt_eq_ok.2 (hperiod ▸ hk)
              refine .filed e slots k hbook hs hk hsome ?_ ?_
              · rw [hslots, hsome, if_pos hs, Option.map_some, PeriodicStats.file_eq_update hk]
              · simp only [acceptedBy, hbook, hsome, hindex, hs, true_and]
                by_cases hw : (slots k).withholds e = true <;> simp [hw]
      · refine .same (by rw [hslots, if_neg hs]) (hidle fun e' he hs' => ?_)
        exact absurd (Action.execution.inj he ▸ hs') hs

/-! ## Runs -/

theorem inSlot_append (k : Period) (es es' : List (Period × Execution)) :
    inSlot k (es ++ es') = inSlot k es ++ inSlot k es' := by
  simp [inSlot]

/-- **Slots summarise what they accepted**, after every stream. An issue without slots has
accepted nothing. -/
theorem summarises_run (h : processAll b World.initial stream = .ok w) (s : UInt16) :
    (w.slots s = none → accepted b s World.initial stream = []) ∧
      ∀ slots, w.slots s = some slots → ∀ k,
        (slots k).Summarises (inSlot k (accepted b s World.initial stream)) := by
  refine (processAll_eq_ok.1 h).history (I := fun past w =>
    (w.slots s = none → accepted b s World.initial past = []) ∧
      ∀ slots, w.slots s = some slots → ∀ k,
        (slots k).Summarises (inSlot k (accepted b s World.initial past))) ?_ ?_
  · exact ⟨fun _ => rfl, fun slots hslots => absurd hslots nofun⟩
  · intro past w m w' hpast ⟨hnone, hsome⟩ hstep
    have hconcat : accepted b s World.initial (past ++ [m]) =
        accepted b s World.initial past ++ acceptedBy b s w m := collect_concat hpast
    rw [hconcat]
    cases slots_step hstep s with
    | same hsame hidle =>
        rw [hidle, List.append_nil, hsame]
        exact ⟨hnone, hsome⟩
    | opened _ hclosed hopen hidle =>
        rw [hidle, List.append_nil, hnone hclosed, hopen]
        refine ⟨nofun, fun slots hslots k => ?_⟩
        rw [← Option.some.inj hslots]
        exact VWAPFormula.summarises_initial
    | filed e slots k _ _ _ hslots hslots' hby =>
        rw [hslots', hby]
        refine ⟨nofun, fun slots' heq j => ?_⟩
        obtain rfl := Option.some.inj heq
        have hj := hsome slots hslots j
        rw [inSlot_append]
        by_cases hjk : j = k
        · subst hjk
          rw [Function.update_self]
          have hfile := hj.file e
          by_cases hw : (slots j).withholds e = true
          · simpa [hw, inSlot] using hfile
          · simpa [hw, inSlot] using hfile
        · have hother : inSlot j (if (slots k).withholds e then [] else [(k, e)]) = [] := by
            split_ifs
            · rfl
            · simp [inSlot, Ne.symm hjk]
          rw [Function.update_of_ne hjk, hother, List.append_nil]
          exact hj

end NasdaqItch
