import NasdaqItch.SlotStatistics
import NasdaqItch.VolumeConservation

/-!
# The calls of a stream

All that reaches a slot goes through `_handleOrderOrTradeExecuted`. `calls` lists the calls that a
stream makes of it for issues with slots. They and the trading actions determine the slots:
each slot is what filing the calls into it leaves (`slots_run`), so two streams that make the same
calls leave the same slots, whatever their books and counters.
-/

namespace NasdaqItch

open UnorderedMap Runs VWAPManager

/-- The call that a message makes, if its issue has slots. -/
def callBy (b : Build) (w : World) (m : Message) : List Call :=
  match bookStep b w.marketCloseTimestamp w.orderBook m with
  | .ok (_, .execution e) =>
      if (w.slots e.stockLocate).isSome then
        [(processHeaderTimestamp w.currentPeriod m.timestamp, e)]
      else []
  | _ => []

def calls (b : Build) (w : World) (stream : List Message) : List Call :=
  collect (consume b) (callBy b) w stream

variable {b : Build} {w w₁ t : World} {m : Message} {stream : List Message} {s : UInt16}
  {k : Period}

theorem filedInto_append (l l' : List Call) :
    filedInto s k (l ++ l') = filedInto s k l ++ filedInto s k l' := by
  simp [filedInto]

theorem callBy_execution {e : Execution} {book : OrderBook}
    (h : bookStep b w.marketCloseTimestamp w.orderBook m = .ok (book, .execution e)) :
    callBy b w m = if (w.slots e.stockLocate).isSome then
      [(processHeaderTimestamp w.currentPeriod m.timestamp, e)] else [] := by
  rw [callBy, h]

theorem callBy_eq_nil {act : Action} {book : OrderBook}
    (h : bookStep b w.marketCloseTimestamp w.orderBook m = .ok (book, act))
    (hact : ∀ e, act ≠ .execution e) : callBy b w m = [] := by
  rw [callBy, h]
  cases act with
  | execution e => exact absurd rfl (hact e)
  | _ => rfl

/-- **What one message files.** An issue without slots has empty ones as soon as it gets them. -/
theorem slots_step_calls (h : consume b w m = .ok w₁) (s : UInt16) (k : Period) :
    (w₁.slots s).getD PeriodicStats.initial k =
      (filedInto s k (callBy b w m)).foldl VWAPFormula.file
        ((w.slots s).getD PeriodicStats.initial k) := by
  obtain ⟨act, hbook, hv, hperiod, -⟩ := consume_eq_ok.1 h
  have hslots : w₁.slots s = slotsAfter w₁.currentPeriod act s (w.slots s) := slots_vwapStep hv s
  cases act with
  | execution e =>
      rw [callBy_execution hbook, ← hperiod]
      by_cases hs : e.stockLocate = s
      · rw [slotsAfter, if_pos hs] at hslots
        cases hsome : w.slots s with
        | none => simp [hslots, hsome, hs, filedInto]
        | some slots =>
            by_cases hk : w₁.currentPeriod.toNat = (k : Nat)
            · simp [hslots, hsome, hs, hk, filedInto, PeriodicStats.file]
            · simp [hslots, hsome, hs, hk, filedInto, PeriodicStats.file]
      · rw [slotsAfter, if_neg hs] at hslots
        have hnone : filedInto s k (if (w.slots e.stockLocate).isSome then
            [(w₁.currentPeriod, e)] else []) = [] := by
          split_ifs <;> simp [filedInto, hs]
        rw [hslots, hnone]
        rfl
  | tradingAction s' stock state =>
      rw [callBy_eq_nil hbook (by simp), hslots, slotsAfter]
      split_ifs <;> rfl
  | idle | brokenTrade =>
      rw [callBy_eq_nil hbook (by simp), hslots]
      rfl

/-- **A slot is what the calls leave in it.** -/
theorem slots_run (h : Run (Steps (consume b)) w stream t) (s : UInt16) (k : Period) :
    (t.slots s).getD PeriodicStats.initial k =
      (filedInto s k (calls b w stream)).foldl VWAPFormula.file
        ((w.slots s).getD PeriodicStats.initial k) := by
  induction h with
  | nil => rfl
  | @cons w w₁ t m stream hstep _ ih =>
      have hcalls : calls b w (m :: stream) = callBy b w m ++ calls b w₁ stream :=
        collect_cons hstep
      rw [ih, slots_step_calls hstep, hcalls, filedInto_append, List.foldl_append]

theorem isSome_slots_step (h : consume b w m = .ok w₁) (s : UInt16) :
    (w₁.slots s).isSome = ((w.slots s).isSome || m.opens s) := by
  have hstep := mem_slots_step h s
  rw [← Finmap.lookup_isSome, ← Finmap.lookup_isSome] at hstep
  rw [Bool.eq_iff_iff, Bool.or_eq_true]
  exact hstep

/-- Which issues have slots depends on the trading actions only. -/
theorem isSome_slots_run (h : Run (Steps (consume b)) w stream t) (s : UInt16) :
    (t.slots s).isSome = ((w.slots s).isSome || stream.any (Message.opens s)) := by
  induction h with
  | nil => simp
  | cons hstep _ ih => rw [ih, isSome_slots_step hstep, List.any_cons, Bool.or_assoc]

end NasdaqItch
